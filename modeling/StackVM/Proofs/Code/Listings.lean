/-
  StackVM.Proofs.Code.Listings — listings of arbitrary code.

  A listing goes from offset to offset, and what stands at an offset says where the next one is: behind the instruction,
  behind the one byte that is none, or at the end of the code if the operand is cut short. This is done in two loops,
  one that makes a text and one that writes to the log, with offsets that are words of 64 bits. Whatever the bytes are,
  both end, and their lines are the same and tile the code.

  - `Ends`: where the line at an offset ends.
  - `Covers`: what the offsets of a listing are like.
  - `Tiles`, `tiles_offsetsFrom`: the lines from an offset on.
  - `Loop`, `loop_iff`: a loop ends, after a round for each line.
  - `listing_covers`: all of it.
-/

import StackVM.Listing
import StackVM.Log
import StackVM.Proofs.Assembly.Printing

namespace StackVM

namespace Listing

open Text (byte ofString)
open Instruction (decode)

/-! ## Lines and the bytes they show -/

/-- The line at the offset `o` ends before the offset. -/
inductive Ends (code : Bytes) (o : Nat) : Nat → Prop
  | instruction {i : Instruction} : decode code o = .ok i → Ends code o (o + i.length)
  | illegal {b : UInt8} : decode code o = .error (.illegalOpcode b) → Ends code o (o + 1)
  | truncated {op : Opcode} : decode code o = .error (.truncated op) → Ends code o code.size

/-- The byte `j` is one of those that the line at the offset `o` stands for. -/
def Shows (code : Bytes) (o j : Nat) : Prop := ∃ next, Ends code o next ∧ o ≤ j ∧ j < next

/-- The offsets of lines that cover the code. -/
structure Covers (code : Bytes) (os : List Nat) : Prop where
  start : os.head? = if code.size = 0 then none else some 0
  increasing : os.Pairwise (· < ·)
  next : ∀ before o o' after, os = before ++ o :: o' :: after →
    Ends code o o' ∧ ∀ op, decode code o ≠ .error (.truncated op)
  last : ∀ before o, os = before ++ [o] → Ends code o code.size
  once : ∀ j < code.size, ∃ o ∈ os, Shows code o j ∧ ∀ o' ∈ os, Shows code o' j → o' = o

variable {code : Bytes} {o next j : Nat} {os : List Nat}

theorem ends_following (h : o < code.size) : Ends code o (following code o) := by
  cases hd : decode code o with
  | ok i => simpa only [following, hd] using Ends.instruction hd
  | error e =>
    cases e with
    | endOfCode => exact absurd (Instruction.size_le_of_decode hd) (Nat.not_le.mpr h)
    | illegalOpcode b => simpa only [following, hd] using Ends.illegal hd
    | truncated op => simpa only [following, hd] using Ends.truncated hd

theorem Ends.eq_following (h : Ends code o next) : next = following code o := by
  cases h with
  | instruction hd | illegal hd | truncated hd => simp only [following, hd]

theorem Ends.bounds (ho : o < code.size) (h : Ends code o next) : o < next ∧ next ≤ code.size := by
  cases h with
  | @instruction i hd =>
    have hend := (Instruction.decode_eq_ok hd).2.1
    have hlength : 0 < i.length := by rw [Instruction.length]; omega
    omega
  | illegal => omega
  | truncated => omega

/-! ## Tiles -/

/-- The lines at these offsets tile the code from an offset on. -/
inductive Tiles (code : Bytes) : Nat → List Nat → Prop
  | done : Tiles code code.size []
  | line {o next : Nat} {os : List Nat} : o < code.size → Ends code o next → Tiles code next os →
      Tiles code o (o :: os)

theorem tiles_offsetsFrom (ho : o ≤ code.size) : Tiles code o (offsetsFrom code o) := by
  induction o using offsetsFrom.induct code with
  | case1 o hlt ih =>
    rw [offsetsFrom, dif_pos hlt]
    exact .line hlt (ends_following hlt) (ih (ends_following hlt |>.bounds hlt).2)
  | case2 o hge =>
    rw [offsetsFrom, dif_neg hge, Nat.le_antisymm ho (Nat.not_lt.mp hge)]
    exact .done

theorem Tiles.bounds (h : Tiles code o os) : ∀ x ∈ os, o ≤ x ∧ x < code.size := by
  induction h with
  | done => simp
  | line ho hends _ ih =>
    have hlt := (hends.bounds ho).1
    refine List.forall_mem_cons.mpr ⟨⟨Nat.le_refl _, ho⟩, fun x hx => ?_⟩
    have hx := ih x hx
    omega

theorem Tiles.increasing (h : Tiles code o os) : os.Pairwise (· < ·) := by
  induction h with
  | done => exact .nil
  | line ho hends hrest ih =>
    refine .cons (fun x hx => ?_) ih
    exact Nat.lt_of_lt_of_le (hends.bounds ho).1 (hrest.bounds x hx).1

/-- Every line shows a byte at least. -/
theorem Tiles.length_le (h : Tiles code o os) : o + os.length ≤ code.size := by
  induction h with
  | done => simp
  | line ho hends _ ih =>
    have hlt := (hends.bounds ho).1
    rw [List.length_cons]
    omega

theorem Tiles.adjacent (h : Tiles code o os) {before after : List Nat} {x y : Nat}
    (hos : os = before ++ x :: y :: after) : Ends code x y ∧ ∀ op, decode code x ≠ .error (.truncated op) := by
  induction h generalizing before with
  | done => simp at hos
  | @line o next os ho hends hrest ih =>
    cases before with
    | cons z before =>
      rw [List.cons_append, List.cons.injEq] at hos
      exact ih hos.2
    | nil =>
      rw [List.nil_append, List.cons.injEq] at hos
      obtain ⟨rfl, rfl⟩ := hos
      cases hrest with
      | line hy _ _ =>
        -- A line whose operand is cut short ends with the code, where no further line can start.
        refine ⟨hends, fun op hd => ?_⟩
        rw [hends.eq_following, ← (Ends.truncated hd).eq_following] at hy
        exact Nat.lt_irrefl _ hy

theorem Tiles.last (h : Tiles code o os) {before : List Nat} {x : Nat} (hos : os = before ++ [x]) :
    Ends code x code.size := by
  induction h generalizing before with
  | done => simp at hos
  | line ho hends hrest ih =>
    cases before with
    | cons z before =>
      rw [List.cons_append, List.cons.injEq] at hos
      exact ih hos.2
    | nil =>
      rw [List.nil_append, List.cons.injEq] at hos
      obtain ⟨rfl, rfl⟩ := hos
      cases hrest with
      | done => exact hends

theorem Tiles.once (h : Tiles code o os) (hle : o ≤ j) (hj : j < code.size) :
    ∃ x ∈ os, Shows code x j ∧ ∀ y ∈ os, Shows code y j → y = x := by
  induction h with
  | done => omega
  | @line o next os ho hends hrest ih =>
    by_cases hlt : j < next
    · refine ⟨o, List.mem_cons_self, ⟨next, hends, hle, hlt⟩, ?_⟩
      refine List.forall_mem_cons.mpr ⟨fun _ => rfl, fun y hy hshows => ?_⟩
      obtain ⟨-, -, hyj, -⟩ := hshows
      have hy := (hrest.bounds y hy).1
      omega
    · obtain ⟨x, hx, hshows, honly⟩ := ih (Nat.not_lt.mp hlt)
      refine ⟨x, List.mem_cons_of_mem _ hx, hshows, List.forall_mem_cons.mpr ⟨fun hfirst => ?_, honly⟩⟩
      obtain ⟨next', hends', -, hj'⟩ := hfirst
      rw [hends'.eq_following, ← hends.eq_following] at hj'
      exact absurd hj' hlt

theorem covers_offsets (code : Bytes) : Covers code (offsets code) := by
  have htiles : Tiles code 0 (offsets code) := tiles_offsetsFrom (Nat.zero_le _)
  have hstart : (offsets code).head? = if code.size = 0 then none else some 0 := by
    rw [offsets, offsetsFrom]
    by_cases hsize : code.size = 0
    · rw [dif_neg (by omega), if_pos hsize]
      rfl
    · rw [dif_pos (by omega), if_neg hsize]
      rfl
  exact ⟨hstart, htiles.increasing, fun _ _ _ _ => htiles.adjacent, fun _ _ => htiles.last,
    fun j => htiles.once (Nat.zero_le j)⟩

/-! ## The two loops -/

/-- A loop that does `body` at the offset of each line, as long as the offset, a word of 64 bits, lies in the code. It
ends after `n` rounds. -/
inductive Loop {σ : Type} (code : Bytes) (body : σ → Nat → σ) : UInt64 → σ → Nat → σ → Prop
  | done {offset : UInt64} {s : σ} : code.size ≤ offset.toNat → Loop code body offset s 0 s
  | round {offset : UInt64} {s s' : σ} {n : Nat} : offset.toNat < code.size →
      Loop code body (followingWord code offset) (body s offset.toNat) n s' → Loop code body offset s (n + 1) s'

/-- A round of the loop that makes a text. -/
def addText (code : Bytes) (entry : Nat) (out : Text) (o : Nat) : Text :=
  out ++ ofString (if o = entry then "> " else "  ") ++ line code o ++ [byte '\n']

/-- A round of the loop that writes to the log. -/
def addLog (code : Bytes) (entry : Nat) (log : List Log.Line) (o : Nat) : List Log.Line :=
  log ++ [Log.info (ofString (if o = entry then "> " else "  ") ++ line code o)]

theorem loop_iff {σ : Type} {body : σ → Nat → σ} {s s' : σ} {n : Nat} (hsize : code.size < UInt64.size)
    (ho : o ≤ code.size) : Loop code body (.ofNat o) s n s' ↔
      n = (offsetsFrom code o).length ∧ s' = (offsetsFrom code o).foldl body s := by
  -- No offset up to the end of the code wraps, and none of the loop's offsets is past the end.
  have hword : ∀ x ≤ code.size, (UInt64.ofNat x).toNat = x := fun x hx =>
    UInt64.toNat_ofNat_of_lt' (Nat.lt_of_le_of_lt hx hsize)
  induction o using offsetsFrom.induct code generalizing s n with
  | case1 o hlt ih =>
    have hnext : followingWord code (.ofNat o) = .ofNat (following code o) := by
      rw [followingWord, hword o ho]
    rw [offsetsFrom, dif_pos hlt, List.length_cons, List.foldl_cons]
    have ih := fun m => @ih (body s o) m (ends_following hlt |>.bounds hlt).2
    constructor
    · intro h
      cases h with
      | done hge =>
        rw [hword o ho] at hge
        omega
      | @round _ _ _ m _ hrest =>
        rw [hnext, hword o ho] at hrest
        obtain ⟨rfl, hs⟩ := (ih m).mp hrest
        exact ⟨rfl, hs⟩
    · rintro ⟨rfl, hs⟩
      refine .round (by rwa [hword o ho]) ?_
      rw [hnext, hword o ho]
      exact (ih _).mpr ⟨rfl, hs⟩
  | case2 o hge =>
    rw [offsetsFrom, dif_neg hge]
    constructor
    · intro h
      cases h with
      | done => exact ⟨rfl, rfl⟩
      | round hlt =>
        rw [hword o ho] at hlt
        exact absurd hlt hge
    · rintro ⟨rfl, rfl⟩
      exact .done (by rw [hword o ho]; exact Nat.not_lt.mp hge)

/-! ## What is written -/

/-- The line carries the mark of the entry. -/
def isMarked (l : Text) : Bool := l.take 2 == ofString "> "

theorem isMarked_markedLine (code : Bytes) (entry o : Nat) : isMarked (markedLine code entry o) = (o == entry) := by
  have hmark : (ofString "> ").length = 2 := by decide
  have hblank : (ofString "  ").length = 2 := by decide
  unfold isMarked markedLine
  by_cases h : o = entry
  · rw [if_pos h, List.take_append_of_le_length (by omega), ← hmark, List.take_length, beq_self_eq_true]
    exact (beq_iff_eq.mpr h).symm
  · rw [if_neg h, List.take_append_of_le_length (by omega), ← hblank, List.take_length, beq_false_of_ne h]
    decide

/-- No line feed in it. -/
def OneLine (t : Text) : Prop := ∀ b ∈ t, b ≠ byte '\n'

theorem OneLine.append {t u : Text} (ht : OneLine t) (hu : OneLine u) : OneLine (t ++ u) := fun b hb =>
  (List.mem_append.mp hb).elim (ht b) (hu b)

theorem oneLine_replicate {b : UInt8} (hb : b ≠ byte '\n') (n : Nat) : OneLine (List.replicate n b) := by
  intro c hc
  rwa [List.eq_of_mem_replicate hc]

theorem OneLine.padStart {t : Text} (ht : OneLine t) {b : UInt8} (hb : b ≠ byte '\n') (width : Nat) :
    OneLine (Text.padStart width b t) := (oneLine_replicate hb _).append ht

theorem OneLine.padEnd {t : Text} (ht : OneLine t) {b : UInt8} (hb : b ≠ byte '\n') (width : Nat) :
    OneLine (Text.padEnd width b t) := ht.append (oneLine_replicate hb _)

theorem oneLine_decimal (n : Nat) : OneLine (Text.decimal n) := fun b hb =>
  Assembly.inside_not_newline (Assembly.inside_of_numeral (by decide) (numeral_decimal n) b hb).1

theorem oneLine_hexadecimal (n : Nat) : OneLine (Text.hexadecimal n) := fun b hb =>
  Assembly.inside_not_newline (Assembly.inside_of_numeral (by decide) (numeral_hexadecimal n) b hb).1

theorem oneLine_name (op : Opcode) : OneLine (ofString op.name) := fun b hb =>
  Assembly.inside_not_newline ((Assembly.inside_of_named (.inl rfl : op.Named _)).2.1 b hb)

theorem oneLine_nameColumn (op : Opcode) : OneLine (nameColumn op) :=
  ((oneLine_name op).padEnd (by decide) _).append (Assembly.forall_mem_of_all (by decide))

theorem oneLine_number (n : Nat) : OneLine (number n) := (oneLine_decimal n).padStart (by decide) _

theorem oneLine_instruction (o : Nat) (i : Instruction) : OneLine (instruction o i) := by
  have harrow : OneLine (ofString " -> ") := Assembly.forall_mem_of_all (by decide)
  have hopen : OneLine (ofString " (0x") := Assembly.forall_mem_of_all (by decide)
  have hclose : OneLine (ofString ")") := Assembly.forall_mem_of_all (by decide)
  have hindex (op : Opcode) (n : Nat) : OneLine (nameColumn op ++ number n) :=
    (oneLine_nameColumn op).append (oneLine_number n)
  rcases i with ⟨op, v⟩
  cases op with
  | jump | jumpIfZero | jumpIfNotZero =>
    simp only [instruction]
    exact ((hindex _ o).append harrow).append (oneLine_decimal _)
  | pushInput | alloc | prop | setProp =>
    simp only [instruction]
    exact hindex _ _
  | pushWord =>
    have hword := ((oneLine_nameColumn .pushWord).append (oneLine_decimal v.toNat)).append hopen
    simp only [instruction]
    exact (hword.append (oneLine_hexadecimal _)).append hclose
  | _ =>
    simp only [instruction]
    exact oneLine_name _

theorem oneLine_markedLine (code : Bytes) (entry o : Nat) : OneLine (markedLine code entry o) := by
  have hmark : OneLine (ofString (if o = entry then "> " else "  ")) := by
    split <;> exact Assembly.forall_mem_of_all (by decide)
  have hcolumn : OneLine (offsetColumn o) :=
    ((oneLine_decimal o).padStart (by decide) _).append (Assembly.forall_mem_of_all (by decide))
  have hend : OneLine (ofString "<<end of code>>") := Assembly.forall_mem_of_all (by decide)
  have htruncated : OneLine (ofString "<truncated>") := Assembly.forall_mem_of_all (by decide)
  have hillegal : OneLine (ofString "<<illegal 0x") := Assembly.forall_mem_of_all (by decide)
  have hclose : OneLine (ofString ">>") := Assembly.forall_mem_of_all (by decide)
  refine hmark.append (hcolumn.append ?_)
  cases decode code o with
  | ok i => exact oneLine_instruction o i
  | error e =>
    cases e with
    | endOfCode => exact hend
    | illegalOpcode b => exact (hillegal.append ((oneLine_hexadecimal _).padStart (by decide) _)).append hclose
    | truncated op => exact (oneLine_nameColumn op).append htruncated

/-- A listing falls into its lines. -/
theorem lines_text (code : Bytes) (entry : Nat) : (text code entry).lines = lines code entry := by
  unfold text lines
  induction offsets code with
  | nil => rfl
  | cons o os ih =>
    have hno : byte '\n' ∉ markedLine code entry o := fun hb => oneLine_markedLine code entry o _ hb rfl
    rw [List.map_cons, List.flatMap_cons, List.append_assoc]
    exact (Assembly.lines_line hno _).trans (congrArg _ ih)

theorem output_listing (code : Bytes) (entry : Nat) (name : Text) :
    Log.output true ((heading name :: lines code entry).map Log.info) =
      heading name ++ byte '\n' :: text code entry := by
  have hlines (ls : List Text) : (ls.map Log.info).flatMap Log.Line.toOutput = ls.flatMap (· ++ [byte '\n']) := by
    rw [List.flatMap_map]
    rfl
  rw [Log.output, if_pos rfl, hlines, List.flatMap_cons, List.append_assoc, text]
  rfl

theorem foldl_addText (code : Bytes) (entry : Nat) (os : List Nat) (out : Text) :
    os.foldl (addText code entry) out = out ++ (os.map (markedLine code entry)).flatMap (· ++ [byte '\n']) := by
  induction os generalizing out with
  | nil => simp
  | cons o os ih =>
    rw [List.foldl_cons, ih, List.map_cons, List.flatMap_cons, addText, markedLine]
    simp only [List.append_assoc]

theorem foldl_addLog (code : Bytes) (entry : Nat) (os : List Nat) (log : List Log.Line) :
    os.foldl (addLog code entry) log = log ++ (os.map (markedLine code entry)).map Log.info := by
  induction os generalizing log with
  | nil => simp
  | cons o os ih =>
    rw [List.foldl_cons, ih, addLog, List.append_assoc]
    rfl

theorem loop_addText (hsize : code.size < UInt64.size) (entry n : Nat) (out : Text) :
    Loop code (addText code entry) 0 [] n out ↔ n = (offsets code).length ∧ out = text code entry := by
  have hloop : Loop code (addText code entry) (.ofNat 0) [] n out ↔ _ := loop_iff hsize (Nat.zero_le _)
  rwa [foldl_addText] at hloop

theorem loop_addLog (hsize : code.size < UInt64.size) (entry n : Nat) (name : Text) (log : List Log.Line) :
    Loop code (addLog code entry) 0 [Log.info (heading name)] n log ↔
      n = (offsets code).length ∧ log = (heading name :: lines code entry).map Log.info := by
  have hloop : Loop code (addLog code entry) (.ofNat 0) [Log.info (heading name)] n log ↔ _ :=
    loop_iff hsize (Nat.zero_le _)
  rwa [foldl_addLog] at hloop

/-- The lines of a listing cover the code, whatever it is, each byte on one line. The mark stands on the line at the
entry, if there is one. Both loops end, and what they make has the same lines. -/
theorem listing_covers (code : Bytes) (entry : Nat) :
    Covers code (offsets code) ∧ (offsets code).length ≤ code.size ∧
    (lines code entry).map isMarked = (offsets code).map (· == entry) ∧
    ((∃ l ∈ lines code entry, isMarked l = true) ↔ entry ∈ offsets code) ∧
    (code.size < UInt64.size →
      (∀ n out, Loop code (addText code entry) 0 [] n out ↔ n = (offsets code).length ∧ out = text code entry) ∧
      ∀ name n log, Loop code (addLog code entry) 0 [Log.info (heading name)] n log ↔
        n = (offsets code).length ∧ log = (heading name :: lines code entry).map Log.info) ∧
    (text code entry).lines = lines code entry ∧
    ∀ name, Log.output true ((heading name :: lines code entry).map Log.info) =
      heading name ++ byte '\n' :: text code entry := by
  have hlength : 0 + (offsets code).length ≤ code.size := (tiles_offsetsFrom (Nat.zero_le _)).length_le
  have hmarks : (lines code entry).map isMarked = (offsets code).map (· == entry) := by
    rw [lines, List.map_map]
    exact List.map_congr_left fun o _ => isMarked_markedLine code entry o
  have hmarked : (∃ l ∈ lines code entry, isMarked l = true) ↔ entry ∈ offsets code := by
    have hany : (∃ l ∈ lines code entry, isMarked l = true) ↔ true ∈ (lines code entry).map isMarked :=
      List.mem_map.symm
    rw [hany, hmarks, List.mem_map]
    simp
  exact ⟨covers_offsets code, by omega, hmarks, hmarked,
    fun hsize => ⟨loop_addText hsize entry, fun name n => loop_addLog hsize entry n name⟩, lines_text code entry,
    output_listing code entry⟩

/-- A byte that is no opcode, a jump, and a jump cut short. -/
theorem listing_covers_malformed :
    let code : Bytes := #[0xFF, 0x08, 6, 0, 0, 0, 0x08, 1]
    offsets code = [0, 1, 6] ∧ Covers code [0, 1, 6] ∧ (∃ l ∈ lines code 6, isMarked l = true) ∧
    (∀ l ∈ lines code 2, isMarked l = false) ∧ Loop code (addText code 6) 0 [] 3 (text code 6) := by
  intro code
  have hoffsets : offsets code = [0, 1, 6] := by
    decide +kernel
  obtain ⟨hcovers, -, -, hsix, hloops, -⟩ := listing_covers code 6
  obtain ⟨-, -, -, htwo, -⟩ := listing_covers code 2
  rw [hoffsets] at hcovers hsix hloops htwo
  refine ⟨hoffsets, hcovers, hsix.mpr (by decide), fun l hl => ?_, ((hloops (by decide)).1 _ _).mpr ⟨rfl, rfl⟩⟩
  rw [Bool.eq_false_iff]
  exact fun hmark => absurd (htwo.mp ⟨l, hl, hmark⟩) (by decide)

end Listing

end StackVM
