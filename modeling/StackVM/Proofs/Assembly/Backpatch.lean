/-
  StackVM.Proofs.Assembly.Backpatch — one pass and patches do the work of two passes.

  A draft that has read lines without a problem holds the code of their pieces with empty targets, the places of
  these targets, and the offset of every label defined so far. Each patch then turns the piece whose target it
  fills in into the instruction that the second pass writes, and no other byte.

  - `Drafted`: what lines without a problem add to a draft; `drafted_lines` is the induction over the lines.
  - `Draft.patched`: the induction over the jumps.
  - `assembled`, `assemble_two_pass`: what comes out of a source without problems.
-/

import StackVM.Proofs.Assembly.TwoPass

namespace StackVM

namespace Assembly

open Instruction (encoding total)
open TwoPass (label? body instruction? entryTarget? Known size labelOffset? value? instructions? wordLines)

/-! ## Jumps among pieces -/

/-- A target to be filled in: where it stands, and the label. -/
def Fixup.place (f : Fixup) : Nat × Text := (f.operand, f.label)

/-- The targets to be filled in, in order. The first piece starts at `offset`. -/
def jumps (offset : Nat) : List Piece → List (Nat × Text)
  | [] => []
  | .whole i :: ps => jumps (offset + i.length) ps
  | .jumpTo op label :: ps => (offset + 1, label) :: jumps (offset + (1 + op.operandWidth)) ps

theorem jumps_append (offset : Nat) (ps qs : List Piece) :
    jumps offset (ps ++ qs) = jumps offset ps ++ jumps (offset + total (ps.map Piece.drafted)) qs := by
  induction ps generalizing offset with
  | nil => rfl
  | cons p ps ih =>
    cases p with
    | whole i => simp [jumps, ih, total, Piece.drafted, Nat.add_assoc]
    | jumpTo op label => simp [jumps, ih, total, Piece.drafted, Instruction.length, Nat.add_assoc]

theorem mem_jumps {offset : Nat} {ps : List Piece} {x : Nat × Text} (hx : x ∈ jumps offset ps) :
    ∃ before op after, ps = before ++ .jumpTo op x.2 :: after ∧
      x.1 = offset + total (before.map Piece.drafted) + 1 := by
  induction ps generalizing offset with
  | nil => cases hx
  | cons p ps ih =>
    cases p with
    | whole i =>
      obtain ⟨before, op, after, rfl, hplace⟩ := ih hx
      exact ⟨.whole i :: before, op, after, rfl, by rw [hplace]; simp [total, Piece.drafted]; omega⟩
    | jumpTo op label =>
      rcases List.mem_cons.mp hx with rfl | hx
      · exact ⟨[], op, ps, rfl, rfl⟩
      · obtain ⟨before, op', after, rfl, hplace⟩ := ih hx
        exact ⟨.jumpTo op label :: before, op', after, rfl, by
          rw [hplace]; simp [total, Piece.drafted, Instruction.length]; omega⟩

/-- Pieces take as much code before their targets are known as afterwards. -/
theorem total_of_resolved {labels : Text → Option Nat} {ps : List Piece} {is : List Instruction}
    (his : ps.mapM (Piece.resolved labels) = some is) : total (ps.map Piece.drafted) = total is := by
  induction ps generalizing is with
  | nil => cases his; rfl
  | cons p ps ih =>
    simp only [List.mapM_cons, Option.bind_eq_bind, Option.bind_eq_some_iff] at his
    obtain ⟨i, hi, is', his', heq⟩ := his
    cases heq
    rw [List.map_cons, total, total, ih his', Instruction.length, Instruction.length, Piece.drafted_of_resolved hi]

theorem fits_of_resolved {labels : Text → Option Nat} {ps : List Piece} {is : List Instruction}
    (hsound : ∀ p ∈ ps, p.Sound) (his : ps.mapM (Piece.resolved labels) = some is) : ∀ i ∈ is, i.Fits := by
  induction ps generalizing is with
  | nil => cases his; simp
  | cons p ps ih =>
    simp only [List.mapM_cons, Option.bind_eq_bind, Option.bind_eq_some_iff] at his
    obtain ⟨i, hi, is', his', heq⟩ := his
    cases heq
    intro j hj
    rcases List.mem_cons.mp hj with rfl | hj
    · exact Piece.fits_of_resolved (hsound p List.mem_cons_self) hi
    · exact ih (fun q hq => hsound q (List.mem_cons_of_mem _ hq)) his' j hj

/-- Every place to be filled in is the operand of one of the instructions, which is the label's offset there. -/
theorem operand_of_mem_jumps {labels : Text → Option Nat} {ps : List Piece} {is : List Instruction} {x : Nat × Text}
    (hx : x ∈ jumps 0 ps) (hsound : ∀ p ∈ ps, p.Sound) (his : ps.mapM (Piece.resolved labels) = some is) :
    ∃ before op offset after, is = before ++ ⟨op, (UInt32.ofNat offset).toUInt64⟩ :: after ∧
      op.operandWidth = 4 ∧ labels x.2 = some offset ∧ x.1 = total before + 1 := by
  obtain ⟨before, op, after, rfl, hplace⟩ := mem_jumps hx
  simp only [List.mapM_append, List.mapM_cons, Option.bind_eq_bind, Option.pure_def, Option.bind_eq_some_iff,
    Option.some.injEq, Piece.resolved, Option.map_eq_some_iff] at his
  obtain ⟨before', hbefore, _, ⟨_, ⟨offset, hoffset, rfl⟩, after', -, rfl⟩, rfl⟩ := his
  obtain ⟨hwidth, -⟩ := hsound _ (List.mem_append_right _ List.mem_cons_self)
  exact ⟨before', op, offset, after', rfl, hwidth, hoffset, by rw [hplace, total_of_resolved hbefore, Nat.zero_add]⟩

/-- No two places to be filled in overlap. -/
theorem pairwise_jumps {offset : Nat} {ps : List Piece} (hsound : ∀ p ∈ ps, p.Sound) :
    (jumps offset ps).Pairwise fun x y => x.1 + 4 ≤ y.1 := by
  induction ps generalizing offset with
  | nil => exact .nil
  | cons p ps ih =>
    have hsound' : ∀ q ∈ ps, q.Sound := fun q hq => hsound q (List.mem_cons_of_mem _ hq)
    cases p with
    | whole i => exact ih hsound'
    | jumpTo op label =>
      obtain ⟨hwidth, -⟩ : op.operandWidth = 4 ∧ _ := hsound _ List.mem_cons_self
      refine .cons (fun y hy => ?_) (ih hsound')
      obtain ⟨before, _, _, -, hplace⟩ := mem_jumps hy
      rw [hplace]
      simp only
      omega

/-! ## The lines -/

/-- What lines without a problem add to a draft, namely the code of the pieces `ps`. -/
structure Drafted (d : Draft) (lines : List (List Text)) (ps : List Piece) (d' : Draft) : Prop where
  clean : d.errors = #[]
  known : ∀ ws ∈ lines, Known ws
  sound : ∀ p ∈ ps, p.Sound
  resolve : ∀ labels, ps.mapM (Piece.resolved labels) = instructions? labels lines
  writer : d'.writer = d.writer.append (encoding (ps.map Piece.drafted))
  fixups : d'.fixups.toList.map Fixup.place = d.fixups.toList.map Fixup.place ++ jumps d.writer.offset ps
  offsets : ∀ name, d'.offsetOf? name = (d.offsetOf? name).or (labelOffset? name d.writer.offset lines)
  names : ∀ ws ∈ lines, ∀ name, label? ws = some name → isLabelName name = true
  entry : d'.entryLine.map (·.target) = (d.entryLine.map (·.target)).or (lines.findSome? entryTarget?)

namespace Draft

theorem errors_report_ne (d : Draft) (line : Nat) (p : Problem) : (d.report line p).errors ≠ #[] := by
  simp [report]

theorem define_of_clean {d : Draft} {line : Nat} {name : Text} (hclean : (d.define line name).errors = #[]) :
    isLabelName name = true ∧ d.offsetOf? name = none ∧
      d.define line name = { d with labels := (name, d.writer.offset) :: d.labels } := by
  unfold define at hclean ⊢
  split at hclean
  next => exact absurd hclean (errors_report_ne _ _ _)
  next hname =>
    split at hclean
    next => exact absurd hclean (errors_report_ne _ _ _)
    next hnew => exact ⟨by simpa using hname, by simpa using hnew, by rw [if_neg hname, if_neg hnew]⟩

/-- A draft at the end of a line's label. -/
def atLabel (d : Draft) (line : Nat) : Option Text → Draft
  | some name => d.define line name
  | none => d

theorem addLine_eq (d : Draft) (line : Nat) (l : Line) :
    d.addLine line l = (d.atLabel line l.label?).addStatement line l.statement := by
  rcases l with ⟨_ | name, st⟩ <;> rfl

/-- What a label without a problem does. -/
structure Labelled (d : Draft) (ws : List Text) (d' : Draft) : Prop where
  same : ∃ labels, d' = { d with labels := labels }
  offsets : ∀ name, d'.offsetOf? name = (d.offsetOf? name).or (labelOffset? name d.writer.offset [ws])
  names : ∀ name, label? ws = some name → isLabelName name = true

theorem labelled {d : Draft} {line : Nat} {ws : List Text} (hclean : (d.atLabel line (label? ws)).errors = #[]) :
    Labelled d ws (d.atLabel line (label? ws)) := by
  cases hlabel : label? ws with
  | none => exact ⟨⟨d.labels, rfl⟩, by simp [atLabel, labelOffset?, hlabel], by simp [hlabel]⟩
  | some name =>
    rw [hlabel] at hclean
    obtain ⟨hname, hnew, heq⟩ := define_of_clean hclean
    refine ⟨⟨_, heq⟩, fun name' => ?_, by simpa [hlabel] using hname⟩
    simp only [atLabel, heq, offsetOf?, List.lookup_cons, labelOffset?, hlabel, Option.some.injEq]
    by_cases h : name = name'
    · subst h
      rw [offsetOf?] at hnew
      simp [hnew]
    · simp [h, beq_false_of_ne (Ne.symm h)]

/-- A piece is written with an empty target. -/
theorem addPiece_of_sound {d : Draft} {line : Nat} {p : Piece} (hp : p.Sound) :
    ∃ fixups, d.addPiece line p = { d with writer := d.writer.append p.drafted.bytes, fixups := fixups } ∧
      fixups.toList.map Fixup.place = d.fixups.toList.map Fixup.place ++ jumps d.writer.offset [p] := by
  cases p with
  | whole i => exact ⟨d.fixups, rfl, by simp [jumps]⟩
  | jumpTo op label =>
    have hemit : d.writer.emitJump op.byte 0 = d.writer.append (Piece.jumpTo op label).drafted.bytes := by
      rw [Writer.emitJump, Writer.u8, Writer.u32, Writer.append_append, Piece.drafted, Instruction.bytes, hp.1]
      rfl
    exact ⟨d.fixups.push ⟨d.writer.jumpOperand, label, line⟩, by rw [addPiece, hemit],
      by simp [jumps, Fixup.place, Writer.jumpOperand]⟩

end Draft

namespace Drafted

/-- A line without code adds its label and its entry at most. -/
theorem of_no_code {d d' : Draft} {ws : List Text} {entryLine : Option EntryLine} (hclean : d'.errors = #[])
    (h : d.Labelled ws d') (hknown : Known ws) (hi : instruction? ws = none)
    (he : entryLine.map (·.target) = (d'.entryLine.map (·.target)).or (entryTarget? ws)) :
    Drafted d [ws] [] { d' with entryLine := entryLine } := by
  obtain ⟨⟨labels, rfl⟩, hoffsets, hnames⟩ := h
  exact {
    clean := hclean
    known := by simpa using hknown
    sound := fun p hp => by cases hp
    resolve := fun labels => by simp [instructions?, hi]
    writer := by simp [Writer.append]
    fixups := by simp [jumps]
    offsets := hoffsets
    names := by simpa using hnames
    entry := by simpa using he }

/-- A line with an instruction adds its piece. -/
theorem of_piece {d d' : Draft} {line : Nat} {ws : List Text} {op : Opcode} {operands : List Text} {p : Piece}
    (hclean : d'.errors = #[]) (h : d.Labelled ws d') (hi : instruction? ws = some (op, operands))
    (hp : pieceOf op operands = .ok p) (he : entryTarget? ws = none) : Drafted d [ws] [p] (d'.addPiece line p) := by
  obtain ⟨hsound, -, hresolved⟩ := pieceOf_eq_ok hp
  obtain ⟨⟨labels, rfl⟩, hoffsets, hnames⟩ := h
  obtain ⟨fixups, heq, hplaces⟩ := Draft.addPiece_of_sound hsound
  rw [heq]
  exact {
    clean := hclean
    known := by simp [Known, hi]
    sound := by simpa using hsound
    resolve := fun labels => by
      rw [instructions?, hi]
      simp only [List.mapM_cons, hresolved, instructions?]
      cases value? labels op operands <;> rfl
    writer := by simp
    fixups := hplaces
    offsets := hoffsets
    names := by simpa using hnames
    entry := by simp [he] }

end Drafted

/-- One line. -/
theorem drafted_line {d : Draft} {line : Nat} {ws : List Text}
    (hclean : (d.addLine line (Line.ofWords ws)).errors = #[]) :
    ∃ ps, Drafted d [ws] ps (d.addLine line (Line.ofWords ws)) ∧ total (ps.map Piece.drafted) = size ws := by
  rw [TwoPass.ofWords_eq, Draft.addLine_eq] at hclean ⊢
  simp only at hclean ⊢
  have hreads := TwoPass.reads ws
  generalize Statement.ofWords (body ws) = st at hclean hreads ⊢
  cases hreads with
  | faulty p => exact absurd hclean (Draft.errors_report_ne _ _ _)
  | nothing hbody =>
    have hi := TwoPass.instruction?_of_empty hbody
    have he := TwoPass.entryTarget?_of_empty hbody
    exact ⟨[], .of_no_code hclean (Draft.labelled hclean) (.inl hbody) hi (by simp [he]), by simp [size, hi, total]⟩
  | entry hi he =>
    simp only [Draft.addStatement] at hclean ⊢
    split at hclean
    next => exact absurd hclean (Draft.errors_report_ne _ _ _)
    next hnew =>
      rw [if_neg hnew]
      have hnone : (d.atLabel line (label? ws)).entryLine = none := by simpa using hnew
      exact ⟨[], .of_no_code hclean (Draft.labelled hclean) (.inr (.inr (by simp [he]))) hi (by simp [he, hnone]),
        by simp [size, hi, total]⟩
  | @piece op operands p hi hp he =>
    have hclean' : (d.atLabel line (label? ws)).errors = #[] := by cases p <;> exact hclean
    refine ⟨[p], .of_piece hclean' (Draft.labelled hclean') hi hp he, ?_⟩
    simp [size, hi, total, Instruction.length, (pieceOf_eq_ok hp).2.1]

theorem instructions?_cons (labels : Text → Option Nat) (ws : List Text) (lines : List (List Text)) :
    instructions? labels (ws :: lines) =
      (instructions? labels [ws]).bind fun is => (instructions? labels lines).map (is ++ ·) := by
  simp only [instructions?]
  split
  next => cases instructions? labels lines <;> rfl
  next op operands _ =>
    cases value? labels op operands <;> cases instructions? labels lines <;> rfl

namespace Drafted

theorem nil {d : Draft} (hclean : d.errors = #[]) : Drafted d [] [] d where
  clean := hclean
  known := fun ws hws => by cases hws
  sound := fun p hp => by cases hp
  resolve := fun labels => rfl
  writer := by simp [Writer.append]
  fixups := by simp [jumps]
  offsets := fun name => by simp [labelOffset?]
  names := fun ws hws => by cases hws
  entry := by simp

theorem cons {d d₁ d' : Draft} {ws : List Text} {lines : List (List Text)} {ps ps' : List Piece}
    (h : Drafted d [ws] ps d₁) (hsize : total (ps.map Piece.drafted) = size ws) (h' : Drafted d₁ lines ps' d') :
    Drafted d (ws :: lines) (ps ++ ps') d' where
  clean := h.clean
  known := List.forall_mem_cons.mpr ⟨h.known ws List.mem_cons_self, h'.known⟩
  sound := fun p hp => (List.mem_append.mp hp).elim (h.sound p) (h'.sound p)
  resolve := fun labels => by
    rw [List.mapM_append, h.resolve, h'.resolve, instructions?_cons labels ws lines]
    cases instructions? labels [ws] <;> cases instructions? labels lines <;> rfl
  writer := by rw [h'.writer, h.writer, Writer.append_append, List.map_append, Instruction.encoding_append]
  fixups := by
    have hoffset : d₁.writer.offset = d.writer.offset + total (ps.map Piece.drafted) := by
      simp [h.writer]
    rw [h'.fixups, h.fixups, jumps_append, List.append_assoc, hoffset]
  offsets := fun name => by
    have hoffset : d₁.writer.offset = d.writer.offset + size ws := by
      simp [h.writer, hsize]
    rw [h'.offsets, h.offsets, Option.or_assoc, hoffset]
    simp only [labelOffset?]
    split <;> rfl
  names := List.forall_mem_cons.mpr ⟨h.names ws List.mem_cons_self, h'.names⟩
  entry := by
    rw [h'.entry, h.entry, Option.or_assoc]
    simp only [List.findSome?_cons, List.findSome?_nil]
    cases entryTarget? ws <;> rfl

end Drafted

/-- All lines. -/
theorem drafted_lines {d : Draft} {line : Nat} {ts : List Text} (hclean : (d.addLines line ts).errors = #[]) :
    ∃ ps, Drafted d (ts.map fun t => words (withoutComment t)) ps (d.addLines line ts) := by
  induction ts generalizing d line with
  | nil => exact ⟨[], .nil hclean⟩
  | cons t ts ih =>
    -- problems are never taken back, so there was none before the later lines either
    obtain ⟨ps', h'⟩ := ih hclean
    obtain ⟨ps, h, hsize⟩ := drafted_line h'.clean
    exact ⟨ps ++ ps', h.cons hsize h'⟩

/-! ## The jumps -/

namespace Draft

theorem patch_of_clean {d : Draft} {f : Fixup} (hclean : (d.patch f).errors = #[]) : d.errors = #[] ∧
    ∃ offset, d.offsetOf? f.label = some offset ∧
      d.patch f = { d with writer := d.writer.patchJump f.operand (UInt32.ofNat offset) } := by
  unfold patch at hclean ⊢
  split at hclean
  next => exact absurd hclean (errors_report_ne _ _ _)
  next offset hoffset => exact ⟨hclean, offset, hoffset, rfl⟩

/-- A patch touches the four bytes of its own jump's target only. -/
theorem getElem?_code_patch (d : Draft) {f : Fixup} {j : Nat} (hj : j < f.operand ∨ f.operand + 4 ≤ j) :
    (d.patch f).writer.code[j]? = d.writer.code[j]? := by
  unfold patch
  split
  next => rfl
  next => exact Writer.getElem?_patchJump hj _

theorem errors_foldl_patch {d : Draft} {fs : List Fixup} (hclean : (fs.foldl patch d).errors = #[]) :
    d.errors = #[] := by
  induction fs generalizing d with
  | nil => exact hclean
  | cons f fs ih => exact (patch_of_clean (ih hclean)).1

/-- The patches turn the pieces from the first jump on into instructions; what is before has been written. -/
theorem patched {d : Draft} {fs : List Fixup} {before : List Instruction} {ps : List Piece}
    (hcode : d.writer.code.toList = encoding before ++ encoding (ps.map Piece.drafted))
    (hfs : fs.map Fixup.place = jumps (total before) ps) (hsound : ∀ p ∈ ps, p.Sound)
    (hclean : (fs.foldl patch d).errors = #[]) :
    ∃ is code, ps.mapM (Piece.resolved d.offsetOf?) = some is ∧
      fs.foldl patch d = { d with writer := ⟨code⟩ } ∧ code.toList = encoding (before ++ is) := by
  induction ps generalizing d fs before with
  | nil =>
    obtain rfl : fs = [] := List.map_eq_nil_iff.mp hfs
    exact ⟨[], d.writer.code, rfl, rfl, by simpa using hcode⟩
  | cons p ps ih =>
    have hsound' : ∀ q ∈ ps, q.Sound := fun q hq => hsound q (List.mem_cons_of_mem _ hq)
    cases p with
    | whole i =>
      have hwritten : d.writer.code.toList = encoding (before ++ [i]) ++ encoding (ps.map Piece.drafted) := by
        simpa [Piece.drafted] using hcode
      have hlater : fs.map Fixup.place = jumps (total (before ++ [i])) ps := by simpa [jumps, total] using hfs
      obtain ⟨is, code, his, heq, hcode'⟩ := ih hwritten hlater hsound' hclean
      exact ⟨i :: is, code, by simp [Piece.resolved, his], heq, by simpa using hcode'⟩
    | jumpTo op label =>
      obtain ⟨hwidth, -⟩ : op.operandWidth = 4 ∧ _ := hsound _ List.mem_cons_self
      -- the jumps stand in the order of the pieces, so the first one left is this piece
      cases fs with
      | nil => cases hfs
      | cons f fs =>
        simp only [List.map_cons, jumps, Fixup.place, List.cons.injEq, Prod.mk.injEq] at hfs
        obtain ⟨⟨hplace, rfl⟩, hfs⟩ := hfs
        obtain ⟨-, offset, hoffset, hpatch⟩ := patch_of_clean (errors_foldl_patch hclean)
        let i : Instruction := ⟨op, (UInt32.ofNat offset).toUInt64⟩
        have hpatched : (d.patch f).writer.code.toList =
            encoding (before ++ [i]) ++ encoding (ps.map Piece.drafted) := by
          rw [← Instruction.encoding_append, List.map_cons, Piece.drafted] at hcode
          rw [hpatch, hplace, ← Instruction.encoding_append, List.append_assoc]
          exact Writer.toList_patchJump hwidth hcode _
        have hlater : fs.map Fixup.place = jumps (total (before ++ [i])) ps := by
          simpa [total, i, Instruction.length] using hfs
        obtain ⟨is, code, his, heq, hcode'⟩ := ih hpatched hlater hsound' hclean
        have hoffsets : (d.patch f).offsetOf? = d.offsetOf? := by rw [hpatch]; rfl
        rw [hoffsets] at his
        refine ⟨i :: is, code, by simp [Piece.resolved, hoffset, his, i], ?_, by simpa using hcode'⟩
        rw [List.foldl_cons, heq, hpatch]

/-! ## The entry -/

theorem resolveEntry_of_clean {d : Draft} (hclean : d.resolveEntry.2.errors = #[]) :
    ∃ entry, d.resolveEntry = (entry, d) ∧ entry ≤ d.writer.offset ∧
      (d.entryLine.map (·.target)).elim (some 0) d.entryOffset? = some entry := by
  unfold resolveEntry at hclean ⊢
  cases hline : d.entryLine with
  | none => exact ⟨0, rfl, Nat.zero_le _, rfl⟩
  | some e =>
    simp only [hline] at hclean ⊢
    cases hoffset : d.entryOffset? e.target with
    | none => rw [hoffset] at hclean; exact absurd hclean (errors_report_ne _ _ _)
    | some offset =>
      simp only [hoffset] at hclean ⊢
      by_cases hend : d.writer.offset < offset
      · rw [if_pos hend] at hclean; exact absurd hclean (errors_report_ne _ _ _)
      · rw [if_neg hend]; exact ⟨offset, rfl, Nat.le_of_not_lt hend, by simpa using hoffset⟩

end Draft

/-! ## The whole source -/

namespace Drafted

variable {lines : List (List Text)} {ps : List Piece} {d : Draft}

theorem offsetOf?_eq (h : Drafted .empty lines ps d) : d.offsetOf? = fun name => labelOffset? name 0 lines :=
  funext h.offsets

theorem places (h : Drafted .empty lines ps d) : d.fixups.toList.map Fixup.place = jumps 0 ps := h.fixups

/-- All patches together. -/
theorem patchAll (h : Drafted .empty lines ps d) (hclean : d.patchAll.errors = #[]) :
    ∃ is code, ps.mapM (Piece.resolved d.offsetOf?) = some is ∧
      d.patchAll = { d with writer := ⟨code⟩ } ∧ code.toList = encoding is := by
  have hcode : d.writer.code.toList = encoding [] ++ encoding (ps.map Piece.drafted) := by
    simp [h.writer, Writer.append, Draft.empty, Writer.empty]
  rw [Draft.patchAll, ← Array.foldl_toList] at hclean ⊢
  exact Draft.patched hcode h.places h.sound hclean

theorem operand_of_mem (h : Drafted .empty lines ps d) {labels : Text → Option Nat} {is : List Instruction}
    (his : ps.mapM (Piece.resolved labels) = some is) {f : Fixup} (hf : f ∈ d.fixups) :
    ∃ before op offset after, is = before ++ ⟨op, (UInt32.ofNat offset).toUInt64⟩ :: after ∧
      op.operandWidth = 4 ∧ labels f.label = some offset ∧ f.operand = total before + 1 := by
  have hplace : f.place ∈ jumps 0 ps := h.places ▸ List.mem_map_of_mem (Array.mem_toList_iff.mpr hf)
  exact operand_of_mem_jumps hplace h.sound his

theorem apart (h : Drafted .empty lines ps d) : d.fixups.toList.Pairwise fun f f' => f.operand + 4 ≤ f'.operand := by
  have hapart : (jumps 0 ps).Pairwise fun x y => x.1 + 4 ≤ y.1 := pairwise_jumps h.sound
  rw [← h.places] at hapart
  exact List.pairwise_map.mp hapart

/-- The entry is looked up among the same labels, whatever the code is by then. -/
theorem entry_eq (h : Drafted .empty lines ps d) (w : Writer) :
    (d.entryLine.map (·.target)).elim (some 0) ({ d with writer := w } : Draft).entryOffset? =
      (lines.findSome? entryTarget?).elim (some 0) fun target =>
        (labelOffset? target 0 lines).or ((Literal.unsigned? target).map (·.toNat)) := by
  have hline : d.entryLine.map (·.target) = lines.findSome? entryTarget? := h.entry
  have hsame : ({ d with writer := w } : Draft).offsetOf? = fun name => labelOffset? name 0 lines := h.offsetOf?_eq
  rw [hline]
  cases lines.findSome? entryTarget? with
  | none => rfl
  | some target =>
    simp only [Option.elim_some, Draft.entryOffset?, hsame]
    cases labelOffset? target 0 lines <;> rfl

end Drafted

theorem ofDraft_of_ok {d : Draft} (hok : (ofDraft d).ok = true) : d.patchAll.errors = #[] ∧
    (ofDraft d).code = d.patchAll.writer.code ∧ (ofDraft d).entry ≤ (ofDraft d).code.size ∧
    (d.patchAll.entryLine.map (·.target)).elim (some 0) d.patchAll.entryOffset? = some (ofDraft d).entry := by
  have hresolve : d.patchAll.resolveEntry.2.errors = #[] := by simpa [ofDraft, ok] using hok
  obtain ⟨entry, heq, hle, hentry⟩ := Draft.resolveEntry_of_clean hresolve
  rw [heq] at hresolve
  rw [ofDraft, heq]
  exact ⟨hresolve, rfl, hle, hentry⟩

/-- What comes out of assembling a source without problems. -/
structure Assembled (source : Text) (is : List Instruction) : Prop where
  known : ∀ ws ∈ wordLines source, Known ws
  program : TwoPass.program? source = some is
  fits : ∀ i ∈ is, i.Fits
  code : (assemble source).code.toList = encoding is
  entry : TwoPass.entryOffset? source = some (assemble source).entry
  entry_le : (assemble source).entry ≤ (assemble source).code.size
  names : ∀ ws ∈ wordLines source, ∀ name, label? ws = some name → isLabelName name = true
  fixups : ∀ f ∈ (Draft.empty.addLines 1 source.lines).fixups, ∃ before op offset after,
    is = before ++ ⟨op, (UInt32.ofNat offset).toUInt64⟩ :: after ∧ op.operandWidth = 4 ∧
      TwoPass.labels source f.label = some offset ∧ f.operand = total before + 1
  apart : (Draft.empty.addLines 1 source.lines).fixups.toList.Pairwise fun f f' => f.operand + 4 ≤ f'.operand

theorem assembled {source : Text} (hok : (assemble source).ok = true) : ∃ is, Assembled source is := by
  obtain ⟨hclean, hcode, hle, hentry⟩ := ofDraft_of_ok hok
  have hdraft : (Draft.empty.addLines 1 source.lines).errors = #[] := by
    rw [Draft.patchAll, ← Array.foldl_toList] at hclean
    exact Draft.errors_foldl_patch hclean
  obtain ⟨ps, h⟩ := drafted_lines hdraft
  obtain ⟨is, code, his, hpatched, hbytes⟩ := h.patchAll hclean
  rw [hpatched] at hcode
  rw [hpatched] at hentry
  rw [h.offsetOf?_eq] at his
  exact ⟨is, {
    known := h.known
    program := (h.resolve _).symm.trans his
    fits := fits_of_resolved h.sound his
    code := hcode ▸ hbytes
    entry := (TwoPass.entryOffset?_eq source).trans ((h.entry_eq ⟨code⟩).symm.trans hentry)
    entry_le := hle
    names := h.names
    fixups := fun f hf => h.operand_of_mem his hf
    apart := h.apart }⟩

/-- Assembling in one pass gives what two passes give, which pass over no line: the instructions of the second pass
one after the other, and the entry. Each jump to a label is one of the instructions; filling in its target changes
the four bytes of its operand only, and no two jumps share any. -/
theorem assemble_two_pass {source : Text} (hok : (assemble source).ok = true) :
    (∀ ws ∈ wordLines source, Known ws) ∧
      ∃ is, TwoPass.program? source = some is ∧
        Writer.empty.emitAll is = .ok ⟨(assemble source).code⟩ ∧
        (assemble source).code.toList = encoding is ∧
        TwoPass.entryOffset? source = some (assemble source).entry ∧
        (assemble source).entry ≤ (assemble source).code.size ∧
        (∀ f ∈ (Draft.empty.addLines 1 source.lines).fixups,
          (∃ before op offset after, is = before ++ ⟨op, (UInt32.ofNat offset).toUInt64⟩ :: after ∧
            op.operandWidth = 4 ∧ TwoPass.labels source f.label = some offset ∧ f.operand = total before + 1) ∧
          ∀ d : Draft, ∀ j, (j < f.operand ∨ f.operand + 4 ≤ j) →
            (d.patch f).writer.code[j]? = d.writer.code[j]?) ∧
        (Draft.empty.addLines 1 source.lines).fixups.toList.Pairwise fun f f' => f.operand + 4 ≤ f'.operand := by
  obtain ⟨is, h⟩ := assembled hok
  have hcode : Writer.empty.append (encoding is) = ⟨(assemble source).code⟩ :=
    congrArg Writer.mk (Array.toList_inj.mp (by simp [Writer.empty, h.code]))
  exact ⟨h.known, is, h.program, by rw [Writer.emitAll_of_fits h.fits, hcode], h.code, h.entry, h.entry_le,
    fun f hf => ⟨h.fixups f hf, fun d _ hj => d.getElem?_code_patch hj⟩, h.apart⟩

/-- A jump to a label further down and one back. -/
def forthAndBack : Text := Text.ofString ".entry start\nback: jump end\nstart: jump back\npush_imm 7\nend:"

theorem assemble_two_pass_forthAndBack :
    (assemble forthAndBack).ok = true ∧
      TwoPass.program? forthAndBack = some [⟨.jump, 19⟩, ⟨.jump, 0⟩, ⟨.pushWord, 7⟩] ∧
      (assemble forthAndBack).code.toList = encoding [⟨.jump, 19⟩, ⟨.jump, 0⟩, ⟨.pushWord, 7⟩] ∧
      (assemble forthAndBack).entry = 5 := by
  have hok : (assemble forthAndBack).ok = true := by decide +kernel
  have hprogram : TwoPass.program? forthAndBack = some [⟨.jump, 19⟩, ⟨.jump, 0⟩, ⟨.pushWord, 7⟩] := by
    decide +kernel
  have hstart : TwoPass.entryOffset? forthAndBack = some 5 := by decide +kernel
  obtain ⟨-, is, his, -, hcode, hentry, -⟩ := assemble_two_pass hok
  rw [hprogram, Option.some.injEq] at his
  rw [hstart, Option.some.injEq] at hentry
  exact ⟨hok, hprogram, his ▸ hcode, hentry.symm⟩

end Assembly

end StackVM
