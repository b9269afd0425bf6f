/-
  StackVM.Proofs.Assembly.Layout — how a source is laid out.

  A source is a sheet of rows, one for each line: blanks, then words with the blanks behind each, then a comment. Every
  source can be taken apart like this and put together again. Of all this the assembler keeps the words. Two sheets with
  the same words on each row are the same to it, and a row without words only moves the rows below it down by one.

  - `Row`, `Sheet`: what a source consists of.
  - `text_ofText`, `proper_ofText`: every source is the text of a sheet.
  - `assemble_text`: assembling goes by the words on the rows.
  - `assembleWords_insert`: a row without words.
  - `layout_irrelevant`: both, for sources.
-/

import StackVM.Proofs.Assembly.Printing
import StackVM.Proofs.Assembly.Recasting

namespace StackVM

namespace Assembly

open Text (byte ofString)
open TwoPass (wordLines)

/-! ## Sheets -/

/-- Blanks that do not end the line, or nothing. -/
def Blanks (t : Text) : Prop := ∀ b ∈ t, Text.isBlank b = true ∧ b ≠ byte '\n'

def Word (t : Text) : Prop := t ≠ [] ∧ ∀ b ∈ t, Inside b

/-- A mark and whatever follows it on the line, or nothing. -/
def Comment (t : Text) : Prop :=
  t = [] ∨ ∃ mark rest, t = mark :: rest ∧ (mark = byte ';' ∨ mark = byte '#') ∧ byte '\n' ∉ rest

structure Cell where
  word : Text
  /-- The blanks behind the word. -/
  gap : Text
  deriving DecidableEq, Repr

/-- A line. -/
structure Row where
  /-- The blanks before the first word. -/
  lead : Text
  cells : List Cell
  comment : Text
  deriving DecidableEq, Repr

structure Sheet where
  rows : List Row
  /-- The last row ends in a line feed, as all others do. -/
  closed : Bool
  deriving DecidableEq, Repr

/-- There are blanks between any two words. -/
inductive Spaced : List Cell → Prop
  | nil : Spaced []
  | cons {c : Cell} {cs : List Cell} : Word c.word → Blanks c.gap → (cs ≠ [] → c.gap ≠ []) → Spaced cs →
      Spaced (c :: cs)

structure Row.Proper (r : Row) : Prop where
  lead : Blanks r.lead
  cells : Spaced r.cells
  comment : Comment r.comment

def Sheet.Proper (s : Sheet) : Prop := ∀ r ∈ s.rows, r.Proper

/-! ## What is on a sheet -/

def Cell.text (c : Cell) : Text := c.word ++ c.gap

/-- The part of a row before its comment. -/
def Row.code (r : Row) : Text := r.lead ++ r.cells.flatMap Cell.text

def Row.text (r : Row) : Text := r.code ++ r.comment

def Row.words (r : Row) : List Text := r.cells.map Cell.word

/-- Lines with a line feed after each, the last one only if the text is closed. -/
def joined (closed : Bool) : List Text → Text
  | [] => []
  | [t] => t ++ (if closed then [byte '\n'] else [])
  | t :: ts => t ++ byte '\n' :: joined closed ts

def Sheet.text (s : Sheet) : Text := joined s.closed (s.rows.map Row.text)

/-- The words on each row. -/
def Sheet.lines (s : Sheet) : List (List Text) := s.rows.map Row.words

/-! ## Taking a source apart -/

def Row.empty : Row := ⟨[], [], []⟩

/-- Puts a byte in front of a row. -/
def Row.push (b : UInt8) (r : Row) : Row :=
  if b = byte ';' ∨ b = byte '#' then ⟨[], [], b :: r.text⟩
  else if Text.isBlank b then { r with lead := b :: r.lead }
  else match r.lead, r.cells with
    | [], c :: cs => { r with cells := ⟨b :: c.word, c.gap⟩ :: cs }
    | lead, cells => ⟨[], ⟨[b], lead⟩ :: cells, r.comment⟩

def Row.ofText (t : Text) : Row := t.foldr Row.push .empty

def Sheet.ofText (source : Text) : Sheet := ⟨source.lines.map Row.ofText, source.getLast? == some (byte '\n')⟩

variable {r : Row} {b : UInt8} {t source : Text}

theorem Row.text_push : (r.push b).text = b :: r.text := by
  rcases r with ⟨lead, cells, comment⟩
  unfold Row.push
  split
  next => rfl
  next =>
    split
    next => rfl
    next =>
      split
      next hlead hcells =>
        cases hlead
        cases hcells
        rfl
      next => simp [Row.text, Row.code, Cell.text]

theorem Row.text_ofText : (Row.ofText t).text = t := by
  induction t with
  | nil => rfl
  | cons b t ih => exact text_push.trans (congrArg (b :: ·) ih)

/-- A line feed is none of the bytes of a row. -/
theorem Row.Proper.push (hr : r.Proper) (hno : byte '\n' ∉ r.text) (hb : b ≠ byte '\n') : (r.push b).Proper := by
  rcases r with ⟨lead, cells, comment⟩
  obtain ⟨hlead, hcells, hcomment⟩ := hr
  unfold Row.push
  split
  next hmark => exact ⟨by simp [Blanks], .nil, .inr ⟨b, _, rfl, hmark, hno⟩⟩
  next hmark =>
    split
    next hblank => exact ⟨List.forall_mem_cons.mpr ⟨⟨hblank, hb⟩, hlead⟩, hcells, hcomment⟩
    next hblank =>
      have hinside : Inside b := ⟨by simpa using hblank, fun h => hmark (.inl h), fun h => hmark (.inr h)⟩
      split
      next hlead' hcells' =>
        cases hlead'
        cases hcells'
        cases hcells with
        | cons hword hgap hapart hcs =>
          exact ⟨hlead, .cons ⟨by simp, List.forall_mem_cons.mpr ⟨hinside, hword.2⟩⟩ hgap hapart hcs, hcomment⟩
      next hother =>
        have hapart : cells ≠ [] → lead ≠ [] := fun hsome hnone => by
          obtain ⟨c, cs, rfl⟩ := List.exists_cons_of_ne_nil hsome
          exact hother c cs hnone rfl
        exact ⟨by simp [Blanks], .cons ⟨by simp, by simpa using hinside⟩ hlead hapart hcells, hcomment⟩

theorem Row.proper_ofText (hno : byte '\n' ∉ t) : (Row.ofText t).Proper := by
  induction t with
  | nil => exact ⟨by simp [Blanks, Row.ofText, Row.empty], .nil, .inl rfl⟩
  | cons b t ih =>
    rw [List.mem_cons, not_or] at hno
    exact (ih hno.2).push (text_ofText.symm ▸ hno.2) (Ne.symm hno.1)

theorem not_mem_of_lines : ∀ t ∈ source.lines, byte '\n' ∉ t := by
  induction source with
  | nil => simp [Text.lines]
  | cons b rest ih =>
    rw [Text.lines]
    split
    next => exact List.forall_mem_cons.mpr ⟨by simp, ih⟩
    next hb =>
      cases hrest : Text.lines rest with
      | nil => simpa using Ne.symm hb
      | cons t ts =>
        rw [hrest] at ih
        obtain ⟨ht, hts⟩ := List.forall_mem_cons.mp ih
        exact List.forall_mem_cons.mpr ⟨by simp [Ne.symm hb, ht], hts⟩

theorem joined_cons {closed : Bool} {ts : List Text} (hts : ts ≠ []) :
    joined closed (t :: ts) = t ++ byte '\n' :: joined closed ts := by
  cases ts with
  | nil => exact absurd rfl hts
  | cons t' ts => rfl

/-- A byte at the front of the first line. -/
theorem joined_push {closed : Bool} {ts : List Text} :
    joined closed ((b :: t) :: ts) = b :: joined closed (t :: ts) := by
  cases ts <;> rfl

theorem lines_ne_nil (hne : source ≠ []) : source.lines ≠ [] := by
  obtain ⟨b, rest, rfl⟩ := List.exists_cons_of_ne_nil hne
  rw [Text.lines]
  split
  next => simp
  next => cases Text.lines rest <;> simp

theorem joined_lines : joined (source.getLast? == some (byte '\n')) source.lines = source := by
  induction source with
  | nil => rfl
  | cons b rest ih =>
    by_cases hrest : rest = []
    · subst hrest
      by_cases hb : b = byte '\n' <;> simp [Text.lines, joined, hb]
    · have hlast : (b :: rest).getLast? = rest.getLast? := by
        obtain ⟨c, rest, rfl⟩ := List.exists_cons_of_ne_nil hrest
        rfl
      rw [hlast, Text.lines]
      split
      next hb => rw [joined_cons (lines_ne_nil hrest), ih, hb]; rfl
      next hb =>
        cases hlines : Text.lines rest with
        | nil => exact absurd hlines (lines_ne_nil hrest)
        | cons t ts =>
          show joined _ ((b :: t) :: ts) = _
          rw [joined_push, ← hlines, ih]

theorem text_ofText : (Sheet.ofText source).text = source := by
  have hrows : (source.lines.map Row.ofText).map Row.text = source.lines := by
    rw [List.map_map, show Row.text ∘ Row.ofText = id from funext fun _ => Row.text_ofText, List.map_id]
  exact (congrArg _ hrows).trans joined_lines

theorem proper_ofText : (Sheet.ofText source).Proper := by
  intro r hr
  obtain ⟨t, ht, rfl⟩ := List.mem_map.mp hr
  exact Row.proper_ofText (not_mem_of_lines t ht)

/-! ## The words are what counts -/

theorem words_cells {cs : List Cell} (hcs : Spaced cs) : words (cs.flatMap Cell.text) = cs.map Cell.word := by
  induction hcs with
  | nil => rfl
  | @cons c cs hword hgap hapart _ ih =>
    have hhead : ∀ b ∈ (c.gap ++ cs.flatMap Cell.text).head?, Text.isBlank b = true := by
      cases hnext : c.gap with
      | nil =>
        have hcs : cs = [] := Classical.not_not.mp fun hcs => hapart hcs hnext
        simp [hcs]
      | cons b gap => simpa using (hgap b (by simp [hnext])).1
    rw [List.flatMap_cons, Cell.text, List.append_assoc, words_append hword.1 (fun b hb => (hword.2 b hb).1) hhead,
      words_gap fun b hb => (hgap b hb).1, ih]
    rfl

theorem plain_of_blank {b : UInt8} (hb : Text.isBlank b = true) : (b != byte ';' && b != byte '#') = true :=
  forall_byte (P := fun b => Text.isBlank b = true → (b != byte ';' && b != byte '#') = true) (by decide +kernel) b hb

theorem mem_cells {cs : List Cell} (hcs : Spaced cs) (hb : b ∈ cs.flatMap Cell.text) :
    Inside b ∨ (Text.isBlank b = true ∧ b ≠ byte '\n') := by
  induction hcs with
  | nil => cases hb
  | cons hword hgap _ _ ih =>
    rw [List.flatMap_cons, Cell.text, List.append_assoc] at hb
    rcases List.mem_append.mp hb with hb | hb
    · exact .inl (hword.2 b hb)
    · rcases List.mem_append.mp hb with hb | hb
      · exact .inr (hgap b hb)
      · exact ih hb

theorem Row.Proper.mem_code (hr : r.Proper) (hb : b ∈ r.code) :
    Inside b ∨ (Text.isBlank b = true ∧ b ≠ byte '\n') := by
  rcases List.mem_append.mp hb with hb | hb
  · exact .inr (hr.lead b hb)
  · exact mem_cells hr.cells hb

theorem Row.Proper.withoutComment (hr : r.Proper) : withoutComment r.text = r.code := by
  have hcode : ∀ b ∈ r.code, (b != byte ';' && b != byte '#') = true := by
    intro b hb
    rcases hr.mem_code hb with hb | hb
    · simp [hb.2]
    · exact plain_of_blank hb.1
  have hcomment : r.comment.takeWhile (fun b => b != byte ';' && b != byte '#') = [] := by
    rcases hr.comment with hnone | ⟨mark, rest, hsome, hmark, -⟩
    · rw [hnone]; rfl
    · rcases hmark with hmark | hmark <;> rw [hsome, hmark] <;> rfl
  rw [Assembly.withoutComment, Row.text, List.takeWhile_append_of_pos hcode, hcomment, List.append_nil]

theorem Row.Proper.words (hr : r.Proper) : Assembly.words (Assembly.withoutComment r.text) = r.words := by
  rw [hr.withoutComment, Row.code, words_gap fun b hb => (hr.lead b hb).1, words_cells hr.cells, Row.words]

theorem Row.Proper.not_mem (hr : r.Proper) : byte '\n' ∉ r.text := by
  intro hb
  rcases List.mem_append.mp hb with hb | hb
  · rcases hr.mem_code hb with hb | hb
    · exact inside_not_newline hb rfl
    · exact hb.2 rfl
  · rcases hr.comment with hnone | ⟨mark, rest, hsome, hmark, hno⟩
    · rw [hnone] at hb
      cases hb
    · rw [hsome] at hb
      rcases List.mem_cons.mp hb with hb | hb
      · rcases hmark with rfl | rfl <;> exact absurd hb (by decide)
      · exact hno hb

/-- An empty last line without a line feed is none. -/
theorem lines_joined (closed : Bool) {ts : List Text} (hts : ∀ t ∈ ts, byte '\n' ∉ t) :
    (joined closed ts).lines = ts ∨ (joined closed ts).lines ++ [[]] = ts := by
  induction ts with
  | nil => exact .inl rfl
  | cons t ts ih =>
    obtain ⟨ht, hts⟩ := List.forall_mem_cons.mp hts
    cases ts with
    | nil =>
      cases closed with
      | true => exact .inl (lines_line ht [])
      | false =>
        rw [joined, if_neg Bool.false_ne_true, List.append_nil]
        by_cases hne : t = []
        · exact .inr (by rw [hne]; rfl)
        · exact .inl (lines_last hne ht)
    | cons t' ts =>
      rw [joined_cons (by simp), lines_line ht]
      exact (ih hts).imp (congrArg (t :: ·)) (congrArg (t :: ·))

variable {s s' : Sheet}

theorem wordLines_text (hs : s.Proper) : wordLines s.text = s.lines ∨ wordLines s.text ++ [[]] = s.lines := by
  have hlines : (s.rows.map Row.text).map (fun t => words (withoutComment t)) = s.lines := by
    rw [List.map_map, Sheet.lines]
    exact List.map_congr_left fun r hr => (hs r hr).words
  have hno : ∀ t ∈ s.rows.map Row.text, byte '\n' ∉ t := by
    intro t ht
    obtain ⟨r, hr, rfl⟩ := List.mem_map.mp ht
    exact (hs r hr).not_mem
  rw [← hlines]
  refine (lines_joined s.closed hno).imp (congrArg _) fun h => ?_
  conv => rhs; rw [← h]
  rw [List.map_append]
  rfl

/-- A last line without words adds nothing. -/
theorem assembleWords_concat_nil (lines : List (List Text)) : assembleWords (lines ++ [[]]) = assembleWords lines := by
  rw [assembleWords, Draft.addWords_append]
  rfl

theorem assemble_text (hs : s.Proper) : assemble s.text = assembleWords s.lines := by
  rw [assemble_eq]
  rcases wordLines_text hs with h | h
  · rw [h]
  · rw [← h, assembleWords_concat_nil]

/-! ## A line without words -/

theorem Line.recast_id (l : Line) : l.recast id = l := by
  rcases l with ⟨label?, _ | ⟨_ | _⟩ | _ | p⟩
  all_goals simp [Line.recast, Statement.recast, Piece.recast]
  cases p <;> rfl

theorem Error.recast_id (f : Nat → Nat) (e : Error) : e.recast f id = ⟨f e.line, e.problem⟩ := by
  rcases e with ⟨n, p⟩
  cases p <;> rfl

theorem recasts_id (ws : List Text) : Recasts id (fun _ => True) ws ws where
  within := ⟨fun _ _ => trivial, by unfold Statement.Within; split <;> trivial⟩
  eq := (Line.recast_id _).symm

/-- The number of a line once another has been put in behind the first `n`. -/
def shifted (n line : Nat) : Nat := if n < line then line + 1 else line

theorem shifted_of_lt {n line : Nat} (h : n < line) : shifted n line = line + 1 := if_pos h

theorem shifted_of_le {n line : Nat} (h : line ≤ n) : shifted n line = line := if_neg (Nat.not_lt.mpr h)

/-- The lines before the new one keep their numbers, those behind it have them one up. -/
theorem assembleWords_insert (pre post : List (List Text)) :
    assembleWords (pre ++ [] :: post) = (assembleWords (pre ++ post)).recast (shifted pre.length) id := by
  obtain ⟨hpre, hwithin⟩ := Draft.addWords_recast (f := shifted pre.length) renames_id Draft.within_empty
    pre (g := id) (fun ws _ => recasts_id ws) 1 fun m _ hlt => by
      rw [shifted_of_le (by omega), shifted_of_le (by omega)]
  obtain ⟨hpost, hall⟩ := Draft.addWords_recast (f := shifted pre.length) renames_id hwithin
    post (g := id) (fun ws _ => recasts_id ws) (1 + pre.length) fun m hle _ => by
      rw [shifted_of_lt (by omega), shifted_of_lt (by omega)]
  -- If there is a line before the new one, the first line keeps its number.
  have hfirst : (Draft.empty.recast (shifted pre.length) id).addWords (shifted pre.length 1) pre =
      Draft.empty.addWords 1 pre := by
    rw [Draft.recast_empty]
    cases pre with
    | nil => rfl
    | cons ws pre => rw [shifted_of_le (by simp)]
  rw [List.map_id] at hpre hpost
  rw [shifted_of_lt (by omega), ← hpre, hfirst] at hpost
  have hdraft : Draft.empty.addWords 1 (pre ++ [] :: post) =
      (Draft.empty.addWords 1 (pre ++ post)).recast (shifted pre.length) id := by
    rw [Draft.addWords_append, Draft.addWords_append, ← hpost]
    rfl
  rw [← Draft.addWords_append] at hall
  rw [assembleWords, hdraft, ofDraft_recast renames_id hall, assembleWords]

/-! ## Sources -/

/-- However the same words are laid out on the same lines, the outcome is the same. A line without words changes the
outcome in nothing but the numbers of the lines behind it. -/
theorem layout_irrelevant (hs : s.Proper) (hs' : s'.Proper) :
    (∀ source, ∃ t : Sheet, t.Proper ∧ t.text = source) ∧
    (s'.lines = s.lines → assemble s'.text = assemble s.text) ∧
    ∀ pre post, s.lines = pre ++ post → s'.lines = pre ++ [] :: post →
      (assemble s'.text).ok = (assemble s.text).ok ∧ (assemble s'.text).code = (assemble s.text).code ∧
      (assemble s'.text).entry = (assemble s.text).entry ∧
      (assemble s'.text).errors =
        (assemble s.text).errors.map fun e => ⟨if pre.length < e.line then e.line + 1 else e.line, e.problem⟩ := by
  refine ⟨fun source => ⟨.ofText source, proper_ofText, text_ofText⟩, fun h => ?_, fun pre post h h' => ?_⟩
  · rw [assemble_text hs', h, assemble_text hs]
  · have hinsert : assemble s'.text = (assemble s.text).recast (shifted pre.length) id := by
      rw [assemble_text hs', h', assembleWords_insert, ← h, assemble_text hs]
    have hrecast : Error.recast (shifted pre.length) id =
        fun e => ⟨if pre.length < e.line then e.line + 1 else e.line, e.problem⟩ :=
      funext fun e => Error.recast_id _ e
    rw [hinsert]
    exact ⟨ok_recast _, rfl, rfl, by rw [← hrecast]; rfl⟩

/-- A source, the same source with other blanks, comments and line ends, and with a line of its own for a comment. -/
theorem layout_irrelevant_commented :
    let source := ofString "go: push_imm 1 ; one\n\tjump go#again\r\nfly\n.entry go"
    let relaid := ofString "\t go:\tpush_imm  1\r\njump go;\n fly\t\n.entry\r go #\n"
    let longer := ofString "go: push_imm 1\n ; the loop\njump go\nfly\n.entry go\n"
    assemble relaid = assemble source ∧ (assemble longer).code = (assemble source).code ∧
    (assemble longer).errors = #[⟨4, .unknownInstruction (ofString "fly")⟩] := by
  intro source relaid longer
  have hsheet (t : Text) : (Sheet.ofText t).Proper ∧ (Sheet.ofText t).text = t := ⟨proper_ofText, text_ofText⟩
  obtain ⟨-, hsame, -⟩ := layout_irrelevant (hsheet source).1 (hsheet relaid).1
  obtain ⟨-, -, hinsert⟩ := layout_irrelevant (hsheet source).1 (hsheet longer).1
  obtain ⟨-, hcode, -, herrors⟩ := hinsert [["go:", "push_imm", "1"].map ofString]
    [["jump", "go"].map ofString, ["fly"].map ofString, [".entry", "go"].map ofString] (by decide +kernel)
    (by decide +kernel)
  rw [(hsheet source).2, (hsheet relaid).2] at hsame
  rw [(hsheet source).2, (hsheet longer).2] at hcode herrors
  refine ⟨hsame (by decide +kernel), hcode, ?_⟩
  rw [herrors]
  decide +kernel

end Assembly

end StackVM
