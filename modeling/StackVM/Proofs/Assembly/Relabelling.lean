/-
  StackVM.Proofs.Assembly.Relabelling — the labels of a source under other names.

  The labels of a source are renamed where they stand: in their definitions, in jumps, in the entry directive. All else
  stays as it is, the blanks and the comments, too. As long as the new names are labels and no two become one, the
  program does not change, and neither do the lines of the errors. A new name may look like an instruction or a number:
  what stands before a colon, behind a jump or behind the directive is looked at for being a label first.

  - `Mentions`: the labels of a source.
  - `relabelWords`, `relabel`: renaming the labels of a line, of a source.
  - `Relabels`: what is asked of the new names.
  - `ofWords_relabelWords`: how a line is read after that.
  - `assemble_relabel`: what becomes of the outcome.
-/

import StackVM.Proofs.Assembly.Layout

namespace StackVM

namespace Assembly

open Text (byte ofString)
open TwoPass (label? body wordLines)
open Dialect (LabelName Defines JumpsTo Enters labelName_iff)

/-! ## Renaming labels -/

/-- The lines define the label, jump to it or enter at it. -/
def Mentions (lines : List (List Text)) (label : Text) : Prop :=
  LabelName label ∧ ∃ ws ∈ lines, Defines ws label ∨ JumpsTo ws label ∨ Enters ws label

/-- The text is no label, or the lines mention it. -/
def Met (lines : List (List Text)) (t : Text) : Prop := isLabelName t = true → Mentions lines t

/-- The operand of the word may be a label: it is a jump or the entry directive. -/
def takesLabel (word : Text) : Bool :=
  word == ofString ".entry" || (Opcode.ofName? word).any (·.operandWidth == 4)

section

variable (ρ : Text → Text)

/-- The new name of a label. What is no label keeps its name. -/
def renamed (t : Text) : Text := if isLabelName t then ρ t else t

/-- Renames the operand of a jump or of the entry directive. -/
def relabelBody : List Text → List Text
  | [word, operand] => [word, if takesLabel word then renamed ρ operand else operand]
  | ws => ws

/-- Renames the labels of a line. -/
def relabelWords (ws : List Text) : List Text :=
  match label? ws with
  | none => relabelBody ρ ws
  | some name => (renamed ρ name ++ ofString ":") :: relabelBody ρ (body ws)

/-- Puts the new words in the place of the old ones. -/
def Row.relabel (r : Row) : Row :=
  { r with cells := List.zipWith (fun w c => ⟨w, c.gap⟩) (relabelWords ρ r.words) r.cells }

def Sheet.relabel (s : Sheet) : Sheet := { s with rows := s.rows.map (Row.relabel ρ) }

/-- Renames the labels of a source. -/
def relabel (source : Text) : Text := ((Sheet.ofText source).relabel ρ).text

/-- The labels in question get names that are labels, each one its own. -/
structure Relabels (lines : List (List Text)) : Prop where
  valid : ∀ t, Mentions lines t → LabelName (ρ t)
  apart : ∀ t u, Mentions lines t → Mentions lines u → ρ t = ρ u → t = u

end

variable {ρ : Text → Text} {ws rest : List Text} {word name t : Text} {lines : List (List Text)}

theorem renamed_of_label (h : isLabelName t = true) : renamed ρ t = ρ t := if_pos h

theorem renamed_of_not_label (h : isLabelName t = false) : renamed ρ t = t := if_neg (Bool.eq_false_iff.mp h)

theorem Relabels.isLabelName (h : Relabels ρ lines) (ht : Met lines t) :
    Assembly.isLabelName (renamed ρ t) = Assembly.isLabelName t := by
  cases hlabel : Assembly.isLabelName t with
  | false => rw [renamed_of_not_label hlabel, hlabel]
  | true => rw [renamed_of_label hlabel, labelName_iff.mp (h.valid t (ht hlabel))]

/-- A new name is a label. -/
theorem Relabels.kept_or_label (h : Relabels ρ lines) (ht : Met lines t) :
    renamed ρ t = t ∨ LabelName (renamed ρ t) := by
  cases hlabel : Assembly.isLabelName t with
  | false => exact .inl (renamed_of_not_label hlabel)
  | true => exact .inr (renamed_of_label hlabel ▸ h.valid t (ht hlabel))

theorem Relabels.renames (h : Relabels ρ lines) : Renames (renamed ρ) (Met lines) where
  label t ht := h.isLabelName ht
  other t := renamed_of_not_label
  apart t u ht hu heq := by
    have hsame : Assembly.isLabelName t = Assembly.isLabelName u := by
      rw [← h.isLabelName ht, heq, h.isLabelName hu]
    cases hlabel : Assembly.isLabelName u with
    | false => rwa [renamed_of_not_label hlabel, renamed_of_not_label (hsame.trans hlabel)] at heq
    | true =>
      rw [renamed_of_label hlabel, renamed_of_label (hsame.trans hlabel)] at heq
      exact h.apart t u (ht (hsame.trans hlabel)) (hu hlabel) heq

/-! ## What no renaming changes -/

section

variable {τ : Text → Text} {op : Opcode} {operand : Text} {operands : List Text} {p : Problem}

theorem recast_of_operandValue (h : operandValue op operand = .error p) : p.recast τ = p := by
  unfold operandValue at h
  split at h
  next => split at h <;> cases h; rfl
  next => split at h <;> cases h; rfl

theorem recast_of_literalPiece (h : literalPiece op operand = .error p) : p.recast τ = p := by
  unfold literalPiece at h
  split at h
  next hvalue => cases h; exact recast_of_operandValue hvalue
  next => split at h <;> cases h; rfl

theorem recast_of_pieceOf (h : pieceOf op operands = .error p) : p.recast τ = p := by
  unfold pieceOf at h
  split at h
  next => split at h <;> cases h; rfl
  next =>
    cases operands with
    | nil => cases h; rfl
    | cons operand operands =>
      cases operands with
      | nil =>
        simp only at h
        split at h
        next => cases h
        next => exact recast_of_literalPiece h
      | cons => cases h; rfl

/-- What is wrong with a statement does not depend on the names of labels. -/
theorem recast_of_faulty (h : Statement.ofWords rest = .faulty p) : p.recast τ = p := by
  cases rest with
  | nil => cases h
  | cons word operands =>
    rw [Statement.ofWords] at h
    split at h
    next =>
      unfold Statement.ofDirective at h
      split at h
      next => split at h <;> cases h; rfl
      next => cases h; rfl
    next =>
      unfold Statement.ofInstruction at h
      split at h
      next => cases h; rfl
      next =>
        split at h
        next => cases h
        next hpiece => cases h; exact recast_of_pieceOf hpiece

end

/-! ## How a line is read under the new names -/

theorem takesLabel_entry : takesLabel (ofString ".entry") = true := by decide

theorem takesLabel_of_named {op : Opcode} (hop : op.Named word) : takesLabel word = (op.operandWidth == 4) := by
  have hentry : (word == ofString ".entry") = false := by
    refine beq_false_of_ne ?_
    rintro rfl
    have hdirective := Dialect.isDirective_of_named hop
    rw [TwoPass.isDirective_entry] at hdirective
    cases hdirective
  rw [takesLabel, hentry, Dialect.named_iff.mp hop, Option.any_some, Bool.false_or]

/-- Nothing changes but a label behind a word that may take one. -/
theorem relabelBody_eq_or : relabelBody ρ rest = rest ∨
    ∃ word label, rest = [word, label] ∧ takesLabel word = true ∧ isLabelName label = true := by
  unfold relabelBody
  split
  next word operand =>
    cases htakes : takesLabel word with
    | false => exact .inl rfl
    | true =>
      cases hlabel : isLabelName operand with
      | false => exact .inl (by rw [if_pos rfl, renamed_of_not_label hlabel])
      | true => exact .inr ⟨word, operand, rfl, htakes, hlabel⟩
  next => exact .inl rfl

/-- Where a word may take a label, a label is read as one. -/
theorem ofWords_of_takes {label : Text} (htakes : takesLabel word = true) (hlabel : isLabelName label = true) :
    Statement.ofWords [word, label] = .entry label ∨
      ∃ op, Statement.ofWords [word, label] = .piece (.jumpTo op label) := by
  rw [takesLabel, Bool.or_eq_true, beq_iff_eq, Option.any_eq_true] at htakes
  rcases htakes with rfl | ⟨op, hop, hwidth⟩
  · exact .inl (Dialect.ofWords_entry label)
  · have hjump : Dialect.Encodes op [label] (.jumpTo op label) :=
      .jumpTo (beq_iff_eq.mp hwidth) (labelName_iff.mpr hlabel)
    exact .inr ⟨op, Dialect.ofWords_of_named (Dialect.named_iff.mpr hop) hjump⟩

theorem relabelBody_of_takes (htakes : takesLabel word = true) :
    relabelBody ρ [word, name] = [word, renamed ρ name] := by
  rw [relabelBody, if_pos htakes]

theorem told_relabelBody {st : Statement} (h : Relabels ρ lines) (hst : st.Within (Met lines))
    (htold : Dialect.Told rest st) : Dialect.Told (relabelBody ρ rest) (st.recast (renamed ρ)) := by
  cases htold with
  | nothing => exact .nothing
  | entry target =>
    rw [relabelBody_of_takes takesLabel_entry]
    exact .entry _
  | @piece op word operands p hop hp =>
    cases hp with
    | bare hwidth => exact .piece hop (.bare hwidth)
    | @jumpTo label hfour hname =>
      rw [relabelBody_of_takes (by rw [takesLabel_of_named hop, hfour]; rfl)]
      have hname' : LabelName (renamed ρ label) :=
        labelName_iff.mpr ((h.isLabelName hst).trans (labelName_iff.mp hname))
      exact .piece hop (.jumpTo hfour hname')
    | @literal operand v hwidth hlabel hv hfits =>
      -- Behind a jump a literal is no label, and behind anything else nothing is renamed.
      have hsame : relabelBody ρ [word, operand] = [word, operand] := by
        refine relabelBody_eq_or.resolve_right ?_
        rintro ⟨word, label, hcons, htakes, hname⟩
        cases hcons
        rw [takesLabel_of_named hop, beq_iff_eq] at htakes
        exact hlabel ⟨htakes, labelName_iff.mpr hname⟩
      rw [hsame]
      exact .piece hop (.literal hwidth hlabel hv hfits)

/-- What a line says after its label. -/
theorem ofWords_relabelBody (h : Relabels ρ lines) (hrest : (Statement.ofWords rest).Within (Met lines)) :
    Statement.ofWords (relabelBody ρ rest) = (Statement.ofWords rest).recast (renamed ρ) := by
  rcases Dialect.told_or_faulty rest with htold | ⟨p, hfault⟩
  · exact (told_relabelBody h hrest htold).ofWords
  · -- A statement with a fault has no label to rename: a label where one may stand is no fault.
    have hsame : relabelBody ρ rest = rest := by
      refine relabelBody_eq_or.resolve_right ?_
      rintro ⟨word, label, rfl, htakes, hlabel⟩
      rcases ofWords_of_takes htakes hlabel with hread | ⟨op, hread⟩ <;> rw [hfault] at hread <;> cases hread
    rw [hsame, hfault, Statement.recast, recast_of_faulty hfault]

/-- Renaming leaves the first word of a statement as it is. -/
theorem head?_relabelBody : (relabelBody ρ rest).head? = rest.head? := by
  unfold relabelBody
  split <;> rfl

/-- All labels of a line are labels of the source. -/
theorem within_of_mem (hws : ws ∈ lines) : (Line.ofWords ws).Within (Met lines) := by
  rw [TwoPass.ofWords_eq]
  refine ⟨fun name hname hlabel => ?_, ?_⟩
  · exact ⟨labelName_iff.mpr hlabel, ws, hws, .inl (Dialect.defines_iff.mpr hname)⟩
  · cases hst : Statement.ofWords (body ws) with
    | nothing | faulty p => trivial
    | entry target =>
      exact fun hlabel => ⟨labelName_iff.mpr hlabel, ws, hws, .inr (.inr (Dialect.enters_iff.mpr hst))⟩
    | piece p =>
      cases p with
      | whole i => trivial
      | jumpTo op label =>
        exact fun hlabel => ⟨labelName_iff.mpr hlabel, ws, hws, .inr (.inl (Dialect.jumpsTo_iff.mpr ⟨op, hst⟩))⟩

theorem recasts_relabelWords (h : Relabels ρ lines) (hws : ws ∈ lines) :
    Recasts (renamed ρ) (Met lines) ws (relabelWords ρ ws) where
  within := within_of_mem hws
  eq := by
    obtain ⟨hlabel, hst⟩ := within_of_mem hws
    rw [TwoPass.ofWords_eq] at hlabel hst
    rw [TwoPass.ofWords_eq ws, Line.recast, ← ofWords_relabelBody h hst, relabelWords]
    cases hname : label? ws with
    | none =>
      have hbody : body ws = ws := by rw [body, hname]; rfl
      have hnone : label? (relabelBody ρ ws) = none := by rw [label?, head?_relabelBody]; exact hname
      have hbody' : body (relabelBody ρ ws) = relabelBody ρ ws := by rw [body, hnone]; rfl
      show Line.ofWords (relabelBody ρ ws) = _
      rw [TwoPass.ofWords_eq, hnone, hbody', hbody]
      rfl
    | some name =>
      have hne : renamed ρ name ≠ [] := by
        rcases h.kept_or_label (hlabel name hname) with hsame | ⟨first, rest, hcons, -⟩
        · rw [hsame]
          exact (Dialect.defines_iff.mpr hname).1
        · simp [hcons]
      have hsome : Line.labelOf? (renamed ρ name ++ ofString ":") = some (renamed ρ name) :=
        Dialect.labelOf?_eq_some.mpr ⟨hne, rfl⟩
      simp only [Line.ofWords, hsome, Option.map_some]

/-! ## How a source is read under the new names -/

/-- A label is a word. -/
theorem word_of_label (ht : LabelName t) : Word t ∧ Word (t ++ ofString ":") := by
  have hfirst (b : UInt8) : (Text.isLetter b = true ∨ b = byte '_') → Inside b :=
    forall_byte (P := fun b => (Text.isLetter b = true ∨ b = byte '_') → Inside b) (by decide +kernel) b
  have hlater (b : UInt8) : (Text.isAlphanumeric b = true ∨ b = byte '_' ∨ b = byte '.') → Inside b :=
    forall_byte (P := fun b => (Text.isAlphanumeric b = true ∨ b = byte '_' ∨ b = byte '.') → Inside b)
      (by decide +kernel) b
  obtain ⟨first, rest, rfl, hb, hrest⟩ := ht
  have hall : ∀ b ∈ first :: rest, Inside b :=
    List.forall_mem_cons.mpr ⟨hfirst first hb, fun c hc => hlater c (hrest c hc)⟩
  have hcolon : ∀ b ∈ ofString ":", Inside b := forall_mem_of_all (by decide)
  exact ⟨⟨by simp, hall⟩, by simp, fun b hb => (List.mem_append.mp hb).elim (hall b) (hcolon b)⟩

theorem length_relabelWords : (relabelWords ρ ws).length = ws.length := by
  have hbody (rest : List Text) : (relabelBody ρ rest).length = rest.length := by
    unfold relabelBody
    split <;> rfl
  unfold relabelWords
  split
  next => exact hbody ws
  next name hname =>
    obtain ⟨-, rest, rfl⟩ := Dialect.defines_iff.mpr hname
    rw [List.length_cons, hbody, body, hname]
    rfl

theorem Relabels.word_renamed (h : Relabels ρ lines) (ht : Met lines t) (hword : Word t) : Word (renamed ρ t) := by
  rcases h.kept_or_label ht with hsame | hlabel
  · rwa [hsame]
  · exact (word_of_label hlabel).1

theorem Relabels.word_definition (h : Relabels ρ lines) (ht : Met lines t) (hword : Word (t ++ ofString ":")) :
    Word (renamed ρ t ++ ofString ":") := by
  rcases h.kept_or_label ht with hsame | hlabel
  · rwa [hsame]
  · exact (word_of_label hlabel).2

theorem words_relabelBody (h : Relabels ρ lines) (hrest : (Statement.ofWords rest).Within (Met lines))
    (hall : ∀ w ∈ rest, Word w) : ∀ w ∈ relabelBody ρ rest, Word w := by
  rcases (relabelBody_eq_or : relabelBody ρ rest = rest ∨ _) with hsame | ⟨word, label, rfl, htakes, hlabel⟩
  · rwa [hsame]
  · have hmet : Met lines label := by
      rcases ofWords_of_takes htakes hlabel with hread | ⟨op, hread⟩
      · rwa [hread] at hrest
      · rwa [hread] at hrest
    obtain ⟨hword, hoperand⟩ := List.forall_mem_cons.mp hall
    rw [relabelBody_of_takes htakes]
    exact List.forall_mem_cons.mpr ⟨hword, by simpa using h.word_renamed hmet (hoperand label (by simp))⟩

/-- The new words are words. -/
theorem words_relabelWords (h : Relabels ρ lines) (hws : ws ∈ lines) (hall : ∀ w ∈ ws, Word w) :
    ∀ w ∈ relabelWords ρ ws, Word w := by
  obtain ⟨hlabel, hst⟩ := within_of_mem hws
  rw [TwoPass.ofWords_eq] at hlabel hst
  unfold relabelWords
  cases hname : label? ws with
  | none =>
    have hbody : body ws = ws := by rw [body, hname]; rfl
    rw [hbody] at hst
    exact words_relabelBody h hst hall
  | some name =>
    obtain ⟨-, rest, rfl⟩ := Dialect.defines_iff.mpr hname
    obtain ⟨hword, hrest⟩ := List.forall_mem_cons.mp hall
    have hbody : body ((name ++ ofString ":") :: rest) = rest := by rw [body, hname]; rfl
    rw [hbody] at hst
    simp only [hbody]
    exact List.forall_mem_cons.mpr ⟨h.word_definition (hlabel name hname) hword, words_relabelBody h hst hrest⟩

theorem words_zipWith {cs : List Cell} (hlength : ws.length = cs.length) :
    (List.zipWith (fun w c => (⟨w, c.gap⟩ : Cell)) ws cs).map Cell.word = ws := by
  induction ws generalizing cs with
  | nil => rfl
  | cons w ws ih =>
    cases cs with
    | nil => cases hlength
    | cons c cs => exact congrArg (w :: ·) (ih (Nat.succ.inj hlength))

/-- The gaps stay where they are. -/
theorem Spaced.zipWith {cs : List Cell} (hcs : Spaced cs) (hall : ∀ w ∈ ws, Word w) :
    Spaced (List.zipWith (fun w c => ⟨w, c.gap⟩) ws cs) := by
  induction hcs generalizing ws with
  | nil => rw [List.zipWith_nil_right]; exact .nil
  | @cons c cs _ hgap hapart _ ih =>
    cases ws with
    | nil => exact .nil
    | cons w ws =>
      obtain ⟨hw, hws⟩ := List.forall_mem_cons.mp hall
      refine .cons hw hgap (fun hsome => hapart ?_) (ih hws)
      rintro rfl
      exact hsome List.zipWith_nil_right

theorem Row.words_relabel (r : Row) : (r.relabel ρ).words = relabelWords ρ r.words :=
  words_zipWith (by rw [length_relabelWords, Row.words, List.length_map])

theorem Spaced.words {cs : List Cell} (hcs : Spaced cs) : ∀ w ∈ cs.map Cell.word, Word w := by
  induction hcs with
  | nil => simp
  | cons hword _ _ _ ih => exact List.forall_mem_cons.mpr ⟨hword, ih⟩

variable {s : Sheet} {source : Text}

theorem Sheet.Proper.relabel (hs : s.Proper) (h : Relabels ρ s.lines) : (s.relabel ρ).Proper := by
  intro r' hr'
  obtain ⟨r, hr, rfl⟩ := List.mem_map.mp hr'
  have hwords : ∀ w ∈ relabelWords ρ r.words, Word w :=
    words_relabelWords h (List.mem_map_of_mem hr) (hs r hr).cells.words
  exact ⟨(hs r hr).lead, (hs r hr).cells.zipWith hwords, (hs r hr).comment⟩

theorem Sheet.lines_relabel (s : Sheet) : (s.relabel ρ).lines = s.lines.map (relabelWords ρ) := by
  simp [Sheet.lines, Sheet.relabel, Row.words_relabel]

theorem assembleWords_relabel (h : Relabels ρ lines) :
    assembleWords (lines.map (relabelWords ρ)) = (assembleWords lines).recast id (renamed ρ) := by
  obtain ⟨hdraft, hall⟩ := Draft.addWords_recast (f := id) h.renames Draft.within_empty lines
    (fun ws hws => recasts_relabelWords h hws) 1 fun _ _ _ => rfl
  rw [Draft.recast_empty] at hdraft
  exact (congrArg ofDraft hdraft).trans (ofDraft_recast h.renames hall)

theorem wordLines_eq (source : Text) : wordLines source = (Sheet.ofText source).lines := by
  rw [Sheet.lines, Sheet.ofText, List.map_map, wordLines]
  refine List.map_congr_left fun t ht => ?_
  have hwords := (Row.proper_ofText (not_mem_of_lines t ht)).words
  rwa [Row.text_ofText] at hwords

/-- Under other names for its labels a source is assembled to the same code and the same entry, with the same problems
on the same lines; only the labels that a problem names go by their new names. -/
theorem assemble_relabel (h : Relabels ρ (wordLines source)) :
    (assemble (relabel ρ source)).ok = (assemble source).ok ∧
    (assemble (relabel ρ source)).code = (assemble source).code ∧
    (assemble (relabel ρ source)).entry = (assemble source).entry ∧
    (assemble (relabel ρ source)).errors.map Error.line = (assemble source).errors.map Error.line ∧
    (assemble (relabel ρ source)).errors.map Error.problem =
      (assemble source).errors.map fun e => e.problem.recast (renamed ρ) := by
  have hsheet : Relabels ρ (Sheet.ofText source).lines := wordLines_eq source ▸ h
  have hassembled : assemble (relabel ρ source) = (assemble source).recast id (renamed ρ) := by
    rw [relabel, assemble_text (proper_ofText.relabel hsheet), Sheet.lines_relabel, assembleWords_relabel hsheet,
      assemble_eq, wordLines_eq]
  rw [hassembled]
  refine ⟨ok_recast _, rfl, rfl, ?_, ?_⟩ <;> rw [recast, Array.map_map] <;> rfl

/-- Labels that look like numbers with an exponent, in a source with a label too many and a label too few. -/
theorem assemble_relabel_exponents :
    let ρ := fun t => ofString "e5." ++ t
    let source := ofString "loop: push_imm 1 ; loop\n\tjump loop\nadd\njump gone#x\nloop:\n.entry  loop"
    Relabels ρ (wordLines source) ∧
    relabel ρ source =
      ofString "e5.loop: push_imm 1 ; loop\n\tjump e5.loop\nadd\njump e5.gone#x\ne5.loop:\n.entry  e5.loop" ∧
    (assemble (relabel ρ source)).code = (assemble source).code ∧
    (assemble (relabel ρ source)).entry = (assemble source).entry ∧
    (assemble (relabel ρ source)).errors.map Error.line = #[5, 4] ∧
    (assemble (relabel ρ source)).errors.map Error.problem =
      #[.duplicateLabel (ofString "e5.loop"), .undefinedLabel (ofString "e5.gone")] := by
  intro ρ source
  have hprefix (t : Text) (ht : LabelName t) : LabelName (ρ t) := by
    obtain ⟨first, rest, rfl, hfirst, hrest⟩ := ht
    have hmarks : ∀ c ∈ ofString "5.", Text.isAlphanumeric c = true ∨ c = byte '_' ∨ c = byte '.' :=
      forall_mem_of_all (by decide)
    have hletter : Text.isAlphanumeric first = true ∨ first = byte '_' ∨ first = byte '.' :=
      hfirst.imp (fun h => by rw [Text.isAlphanumeric, h, Bool.true_or]) .inl
    have hname : ∀ c ∈ first :: rest, Text.isAlphanumeric c = true ∨ c = byte '_' ∨ c = byte '.' :=
      List.forall_mem_cons.mpr ⟨hletter, hrest⟩
    exact ⟨byte 'e', ofString "5." ++ first :: rest, rfl, .inl (by decide),
      fun c hc => (List.mem_append.mp hc).elim (hmarks c) (hname c)⟩
  have h : Relabels ρ (wordLines source) := ⟨fun t ht => hprefix t ht.1, fun t u _ _ => List.append_cancel_left⟩
  obtain ⟨-, hcode, hentry, hlines, hproblems⟩ := assemble_relabel h
  refine ⟨h, by decide +kernel, hcode, hentry, ?_, ?_⟩
  · rw [hlines]
    decide +kernel
  · rw [hproblems]
    decide +kernel

end Assembly

end StackVM
