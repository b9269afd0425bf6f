/-
  StackVM.Proofs.Assembly.Reports — what is accepted and what is reported.

  The lines are read one after the other, and what the draft has noted by then is a matter of those lines: which labels
  are defined, which jumps wait for a label, where the entry directive was and on which lines there were problems. A
  line adds to each of these what it says, and a problem for a label or a rest that does not fit the lines before.
  After the lines the jumps are gone through in the order in which they were noted, and then the entry.

  - `noting_addLine`: what a line adds; `Noted.concat`: what is noted after one more line.
  - `noted_addLines`: what is noted after all lines.
  - `foldl_patch`, `resolveEntry_cases`: what is reported after them.
  - `assemble_dialect`: a source is accepted exactly if it is in the dialect, and all problems are reported, in order.
-/

import StackVM.Proofs.Assembly.Backpatch
import StackVM.Proofs.Assembly.Dialect

namespace StackVM

namespace Assembly

open Dialect
open TwoPass (label? body wordLines)

variable {before lines : List (List Text)} {ws : List Text} {d d' : Draft} {n : Nat} {name label target : Text}

/-! ## One problem more -/

/-- A problem is added on the line `n`, unless all is well. -/
inductive Adds (n : Nat) (well : Prop) (es : Array Error) : Array Error → Prop
  | nothing : well → Adds n well es es
  | problem (p : Problem) : ¬ well → Adds n well es (es.push ⟨n, p⟩)

variable {well : Prop} {es es' : Array Error}

theorem Adds.mem (h : Adds n well es es') (m : Nat) :
    (∃ e ∈ es'.toList, e.line = m) ↔ (∃ e ∈ es.toList, e.line = m) ∨ (m = n ∧ ¬ well) := by
  cases h with
  | nothing hwell => simp [hwell]
  | problem p hwell =>
    simp only [Array.toList_push, List.mem_append, List.mem_singleton, or_and_right, exists_or, exists_eq_left, hwell,
      not_false_eq_true, and_true]
    exact or_congr_right eq_comm

theorem Adds.inOrder (h : Adds n well es es') (hle : ∀ e ∈ es.toList, e.line ≤ n)
    (hes : es.toList.Pairwise fun e e' => e.line ≤ e'.line) :
    es'.toList.Pairwise (fun e e' => e.line ≤ e'.line) ∧ ∀ e ∈ es'.toList, e.line ≤ n := by
  cases h with
  | nothing => exact ⟨hes, hle⟩
  | problem p hwell =>
    rw [Array.toList_push]
    refine ⟨List.pairwise_append.mpr ⟨hes, List.pairwise_singleton _ _, ?_⟩, ?_⟩
    · intro e he e' he'
      rw [List.mem_singleton] at he'
      subst he'
      exact hle e he
    · intro e he
      rw [List.mem_append, List.mem_singleton] at he
      rcases he with he | rfl
      · exact hle e he
      · exact Nat.le_refl n

theorem Adds.eq_empty (h : Adds n well es es') (hes : es' = #[]) : well ∧ es = #[] := by
  cases h with
  | nothing hwell => exact ⟨hwell, hes⟩
  | problem p hwell => exact absurd hes (by simp)

/-! ## What a line adds -/

/-- The labels of a draft are those that the lines define, and all of them stand in the code or at its end. -/
structure LabelsOf (lines : List (List Text)) (d : Draft) : Prop where
  defined : ∀ name, (d.offsetOf? name).isSome = true ↔ Defined lines name
  inCode : ∀ name o, d.offsetOf? name = some o → o ≤ d.writer.offset

/-- What is added by the line `n` to a draft of the lines before it. -/
structure Noting (before : List (List Text)) (n : Nat) (ws : List Text) (d d' : Draft) : Prop where
  labels : LabelsOf (before ++ [ws]) d'
  entry : (d'.entryLine = d.entryLine ∧ ∀ target, Enters ws target → d.entryLine.isSome = true) ∨
    (d.entryLine = none ∧ ∃ target, Enters ws target ∧ d'.entryLine = some ⟨n, target⟩)
  fixups : (d'.fixups = d.fixups ∧ ∀ label, ¬ JumpsTo ws label) ∨
    ∃ operand label, d'.fixups = d.fixups.push ⟨operand, label, n⟩ ∧ JumpsTo ws label
  errors : ∃ es, Adds n (LabelFits before ws) d.errors es ∧ Adds n (RestFits before ws) es d'.errors
  size : RestFits before ws → d'.writer.offset = d.writer.offset + TwoPass.size ws

theorem defined_concat : Defined (before ++ [ws]) name ↔ Defined before name ∨ (LabelName name ∧ Defines ws name) := by
  simp only [Defined, List.mem_append, List.mem_singleton, or_and_right, exists_or, exists_eq_left, and_or_left]

theorem noEntry_concat : NoEntry (before ++ [ws]) ↔ NoEntry before ∧ ∀ target, ¬ Enters ws target := by
  simp only [NoEntry, List.mem_append, List.mem_singleton, or_imp, forall_and, forall_eq]

theorem Dialect.Enters.unique {target' : Text} (h : Enters ws target) (h' : Enters ws target') : target = target' := by
  rw [enters_iff] at h h'
  injection h.symm.trans h'

theorem Dialect.JumpsTo.unique {label' : Text} (h : JumpsTo ws label) (h' : JumpsTo ws label') : label = label' := by
  obtain ⟨op, h⟩ := jumpsTo_iff.mp h
  obtain ⟨op', h'⟩ := jumpsTo_iff.mp h'
  injection h.symm.trans h' with hp
  injection hp

/-- What the label of a line does. -/
structure Labelling (before : List (List Text)) (n : Nat) (ws : List Text) (d d' : Draft) : Prop where
  same : ∃ labels errors, d' = { d with labels := labels, errors := errors }
  labels : LabelsOf (before ++ [ws]) d'
  errors : Adds n (LabelFits before ws) d.errors d'.errors

theorem defines_iff_eq (hlabel : label? ws = some name) {name' : Text} : Defines ws name' ↔ name' = name := by
  rw [defines_iff, hlabel, Option.some.injEq, eq_comm]

/-- A label that does not fit is reported, and defines nothing. -/
theorem labelling_report (hd : LabelsOf before d) (hlabel : label? ws = some name)
    (hbad : ¬ LabelName name ∨ Defined before name) (p : Problem) : Labelling before n ws d (d.report n p) where
  same := ⟨_, _, rfl⟩
  labels := by
    refine ⟨fun name' => ?_, hd.inCode⟩
    rw [defined_concat, defines_iff_eq hlabel, or_iff_left_of_imp]
    · exact hd.defined name'
    · rintro ⟨hname, rfl⟩
      exact hbad.resolve_left fun h => h hname
  errors := by
    refine .problem p fun hfits => ?_
    obtain ⟨hname, hnew⟩ := hfits name ((defines_iff_eq hlabel).mpr rfl)
    exact hbad.elim (fun h => h hname) hnew

theorem labelling_define (hd : LabelsOf before d) (hlabel : label? ws = some name)
    (hname : LabelName name) (hnew : ¬ Defined before name) :
    Labelling before n ws d { d with labels := (name, d.writer.offset) :: d.labels } where
  same := ⟨_, _, rfl⟩
  labels := by
    constructor
    · intro name'
      rw [defined_concat, defines_iff_eq hlabel, Draft.offsetOf?, List.lookup_cons]
      by_cases heq : name' = name
      · subst heq
        simp [hname]
      · rw [beq_false_of_ne heq]
        simp only [heq, and_false, or_false]
        exact hd.defined name'
    · intro name' o ho
      rw [Draft.offsetOf?, List.lookup_cons] at ho
      split at ho
      · cases ho; exact Nat.le_refl _
      · exact hd.inCode name' o ho
  errors := by
    refine .nothing fun name' hname' => ?_
    obtain rfl := (defines_iff_eq hlabel).mp hname'
    exact ⟨hname, hnew⟩

theorem labelling (hd : LabelsOf before d) (n : Nat) (ws : List Text) :
    Labelling before n ws d (d.atLabel n (label? ws)) := by
  cases hlabel : label? ws with
  | none =>
    have hno (name : Text) : ¬ Defines ws name := by
      rw [defines_iff, hlabel]
      simp
    have hsame (name : Text) : Defined (before ++ [ws]) name ↔ Defined before name := by
      rw [defined_concat, or_iff_left fun hdefines => hno name hdefines.2]
    exact {
      same := ⟨_, _, rfl⟩
      labels := ⟨fun name => (hd.defined name).trans (hsame name).symm, hd.inCode⟩
      errors := .nothing fun name hname => absurd hname (hno name) }
  | some name =>
    show Labelling before n ws d (d.define n name)
    unfold Draft.define
    split
    next hinvalid =>
      have hbad : ¬ LabelName name := by
        rw [labelName_iff]
        simpa using hinvalid
      exact labelling_report hd hlabel (.inl hbad) _
    next hvalid =>
      have hname : LabelName name := by
        rw [labelName_iff]
        simpa using hvalid
      split
      next hold => exact labelling_report hd hlabel (.inr ((hd.defined name).mp hold)) _
      next hnew => exact labelling_define hd hlabel hname (mt (hd.defined name).mpr hnew)

/-! ## What the rest of a line adds -/

theorem restFits_iff (hfault : ∀ p, Statement.ofWords (body ws) ≠ .faulty p) :
    RestFits before ws ↔ ∀ target, Enters ws target → NoEntry before := by
  rw [RestFits, says_phrase_iff]
  exact and_iff_right hfault

theorem not_enters (hst : ∀ target, Statement.ofWords (body ws) ≠ .entry target) (target : Text) :
    ¬ Enters ws target := by
  rw [enters_iff]
  exact hst target

theorem not_jumpsTo (hst : ∀ op label, Statement.ofWords (body ws) ≠ .piece (.jumpTo op label)) (label : Text) :
    ¬ JumpsTo ws label := by
  rw [jumpsTo_iff]
  rintro ⟨op, h⟩
  exact hst op label h

/-- How many bytes a line takes is a matter of what it says. -/
theorem size_eq (hfault : ∀ p, Statement.ofWords (body ws) ≠ .faulty p) : TwoPass.size ws =
    match Statement.ofWords (body ws) with
    | .piece p => p.drafted.length
    | _ => 0 := by
  have hreads := TwoPass.reads ws
  generalize Statement.ofWords (body ws) = st at hfault hreads
  cases hreads with
  | nothing hbody => simp [TwoPass.size, TwoPass.instruction?_of_empty hbody]
  | entry hi he => simp [TwoPass.size, hi]
  | faulty p => exact absurd rfl (hfault p)
  | piece hi hp he => simp [TwoPass.size, hi, Instruction.length, (pieceOf_eq_ok hp).2.1]

/-- A piece read from a line takes as many bytes as it is drafted with. -/
theorem offset_addPiece {p : Piece} (hp : p.Sound) :
    (d.addPiece n p).writer.offset = d.writer.offset + p.drafted.length := by
  have hadded : ∃ fixups, d.addPiece n p = { d with writer := d.writer.append p.drafted.bytes, fixups := fixups } ∧ _ :=
    Draft.addPiece_of_sound hp
  obtain ⟨fixups, heq, -⟩ := hadded
  rw [heq, Writer.offset_append, Instruction.length_bytes]

theorem addPiece_same (d : Draft) (n : Nat) (p : Piece) :
    (d.addPiece n p).offsetOf? = d.offsetOf? ∧ (d.addPiece n p).entryLine = d.entryLine ∧
      (d.addPiece n p).errors = d.errors := by
  cases p <;> exact ⟨rfl, rfl, rfl⟩

theorem sound_of_piece {p : Piece} (hst : Statement.ofWords (body ws) = .piece p) : p.Sound := by
  have hreads := TwoPass.reads ws
  rw [hst] at hreads
  cases hreads with
  | piece hi hp he => exact (pieceOf_eq_ok hp).1

/-- A piece goes to the end of the code, and a jump to a label is noted. -/
theorem noting_piece {p : Piece} (h : Labelling before n ws d d') (hst : Statement.ofWords (body ws) = .piece p) :
    Noting before n ws d (d'.addPiece n p) := by
  obtain ⟨⟨labels, es, rfl⟩, hlabels, herrors⟩ := h
  obtain ⟨hsame, hentry, hclean⟩ := addPiece_same { d with labels := labels, errors := es } n p
  have hoffset := offset_addPiece (d := { d with labels := labels, errors := es }) (n := n) (sound_of_piece hst)
  have hno (target : Text) : ¬ Enters ws target := not_enters (by simp [hst]) target
  exact {
    labels := by
      constructor
      · rw [hsame]
        exact hlabels.defined
      · intro name o ho
        rw [hsame] at ho
        have hle : o ≤ d.writer.offset := hlabels.inCode name o ho
        show o ≤ Writer.offset _
        rw [hoffset]
        show o ≤ d.writer.offset + _
        omega
    entry := .inl ⟨hentry, fun target ht => absurd ht (hno target)⟩
    fixups := by
      cases p with
      | whole i => exact .inl ⟨rfl, not_jumpsTo (by simp [hst])⟩
      | jumpTo op label => exact .inr ⟨_, label, rfl, jumpsTo_iff.mpr ⟨op, hst⟩⟩
    errors := by
      refine ⟨es, herrors, ?_⟩
      rw [hclean]
      exact .nothing ((restFits_iff (by simp [hst])).mpr fun target ht => absurd ht (hno target))
    size := fun _ => by rw [hoffset, size_eq (by simp [hst]), hst] }

/-- Nothing is added but what the label has added and, at most, one problem and an entry. -/
theorem noting_codeless {es : Array Error} {entryLine : Option EntryLine} (h : Labelling before n ws d d')
    (hno : ∀ p, Statement.ofWords (body ws) ≠ .piece p)
    (hentry : (entryLine = d.entryLine ∧ ∀ target, Enters ws target → d.entryLine.isSome = true) ∨
      (d.entryLine = none ∧ ∃ target, Enters ws target ∧ entryLine = some ⟨n, target⟩))
    (herror : Adds n (RestFits before ws) d'.errors es) :
    Noting before n ws d { d' with entryLine := entryLine, errors := es } := by
  obtain ⟨⟨labels, es', rfl⟩, hlabels, herrors⟩ := h
  exact {
    labels := ⟨hlabels.defined, hlabels.inCode⟩
    entry := hentry
    fixups := .inl ⟨rfl, not_jumpsTo fun op label => hno _⟩
    errors := ⟨es', herrors, herror⟩
    size := fun hfits => by
      have hfault : ∀ p, Statement.ofWords (body ws) ≠ .faulty p := says_phrase_iff.mp hfits.1
      rw [size_eq hfault]
      cases hst : Statement.ofWords (body ws) with
      | piece p => exact absurd hst (hno p)
      | nothing | entry target | faulty p => rfl }

/-- One line. -/
theorem noting_addLine (hd : LabelsOf before d)
    (hentry : d.entryLine = none ↔ NoEntry before) (n : Nat) (ws : List Text) :
    Noting before n ws d (d.addLine n (Line.ofWords ws)) := by
  rw [TwoPass.ofWords_eq, Draft.addLine_eq]
  have hlabel := labelling hd n ws
  simp only
  generalize d.atLabel n (label? ws) = d₁ at hlabel ⊢
  obtain ⟨labels, es, hsame⟩ := hlabel.same
  have hstill : d₁.entryLine = d.entryLine := by rw [hsame]
  cases hst : Statement.ofWords (body ws) with
  | nothing =>
    have hno (target : Text) : ¬ Enters ws target := not_enters (by simp [hst]) target
    rw [Draft.addStatement]
    exact noting_codeless hlabel (by simp [hst]) (.inl ⟨hstill, fun target ht => absurd ht (hno target)⟩)
      (.nothing ((restFits_iff (by simp [hst])).mpr fun target ht => absurd ht (hno target)))
  | piece p => exact noting_piece hlabel hst
  | faulty p =>
    have hno (target : Text) : ¬ Enters ws target := not_enters (by simp [hst]) target
    refine noting_codeless hlabel (by simp [hst]) (.inl ⟨hstill, fun target ht => absurd ht (hno target)⟩) ?_
    exact .problem p fun hfits => says_phrase_iff.mp hfits.1 p hst
  | entry target =>
    have henters : Enters ws target := enters_iff.mpr hst
    rw [Draft.addStatement]
    split
    next hold =>
      rw [hstill] at hold
      refine noting_codeless hlabel (by simp [hst]) (.inl ⟨hstill, fun _ _ => hold⟩) (.problem _ fun hfits => ?_)
      rw [hentry.mpr (hfits.2 target henters)] at hold
      cases hold
    next hnew =>
      rw [hstill] at hnew
      have hnone : d.entryLine = none := by simpa using hnew
      refine noting_codeless hlabel (by simp [hst]) (.inr ⟨hnone, target, henters, rfl⟩) (.nothing ?_)
      exact (restFits_iff (by simp [hst])).mpr fun _ _ => hentry.mp hnone

/-! ## What is noted after some lines -/

/-- A draft of the lines, which start with the line 1. -/
structure Noted (lines : List (List Text)) (d : Draft) : Prop where
  labels : LabelsOf lines d
  entry : ∀ n target, d.entryLine = some ⟨n, target⟩ ↔
    OnLine lines n fun before ws => Enters ws target ∧ NoEntry before
  noEntry : d.entryLine = none ↔ NoEntry lines
  fixups : ∀ n label, (∃ f ∈ d.fixups.toList, f.line = n ∧ f.label = label) ↔
    OnLine lines n fun _ ws => JumpsTo ws label
  fixupsInOrder : d.fixups.toList.Pairwise fun f f' => f.line < f'.line
  errors : ∀ n, (∃ e ∈ d.errors.toList, e.line = n) ↔ OnLine lines n fun before ws => ¬ WellFormed before ws
  errorsInOrder : d.errors.toList.Pairwise fun e e' => e.line ≤ e'.line
  size : d.errors = #[] → d.writer.offset = codeSize lines

theorem noted_nil : Noted [] .empty where
  labels := ⟨fun name => by simp [Draft.empty, Draft.offsetOf?, Defined], fun name o ho => by cases ho⟩
  entry n target := by simp [Draft.empty, not_onLine_nil]
  noEntry := by simp [Draft.empty, NoEntry]
  fixups n label := by simp [Draft.empty, not_onLine_nil]
  fixupsInOrder := .nil
  errors n := by simp [Draft.empty, not_onLine_nil]
  errorsInOrder := .nil
  size _ := rfl

theorem codeSize_concat (lines : List (List Text)) (ws : List Text) :
    codeSize (lines ++ [ws]) = codeSize lines + TwoPass.size ws := by
  induction lines with
  | nil => simp [codeSize]
  | cons ws' lines ih => rw [List.cons_append, codeSize, codeSize, ih, Nat.add_assoc]

namespace Noted

theorem line_le (h : Noted lines d) {e : Error} (he : e ∈ d.errors.toList) : e.line ≤ lines.length :=
  ((h.errors e.line).mp ⟨e, he, rfl⟩).bounds.2

/-- The entry directive that counts is the first one. -/
theorem entry_concat (h : Noted lines d) (ha : Noting lines (lines.length + 1) ws d d') (n : Nat) (target : Text) :
    d'.entryLine = some ⟨n, target⟩ ↔
      OnLine (lines ++ [ws]) n fun before ws => Enters ws target ∧ NoEntry before := by
  rw [onLine_concat]
  rcases ha.entry with ⟨hsame, hold⟩ | ⟨hnone, target', henters, hnew⟩
  · rw [hsame, h.entry, or_iff_left_of_imp]
    rintro ⟨-, ht, hno⟩
    have hsome := hold target ht
    rw [h.noEntry.mpr hno] at hsome
    cases hsome
  · have hbefore : ¬ OnLine lines n fun before ws => Enters ws target ∧ NoEntry before := by
      rw [← h.entry, hnone]
      simp
    rw [hnew, or_iff_right hbefore]
    constructor
    · intro heq
      cases heq
      exact ⟨rfl, henters, h.noEntry.mp hnone⟩
    · rintro ⟨rfl, ht, -⟩
      rw [henters.unique ht]

theorem noEntry_concat (h : Noted lines d) (ha : Noting lines (lines.length + 1) ws d d') :
    d'.entryLine = none ↔ NoEntry (lines ++ [ws]) := by
  rw [Assembly.noEntry_concat, ← h.noEntry]
  rcases ha.entry with ⟨hsame, hold⟩ | ⟨hnone, target, henters, hnew⟩
  · rw [hsame]
    refine ⟨fun hnone => ⟨hnone, fun target ht => ?_⟩, And.left⟩
    have hsome := hold target ht
    rw [hnone] at hsome
    cases hsome
  · rw [hnew]
    exact ⟨fun h => absurd h (by simp), fun h => absurd henters (h.2 target)⟩

theorem fixups_concat (h : Noted lines d) (ha : Noting lines (lines.length + 1) ws d d') (n : Nat) (label : Text) :
    (∃ f ∈ d'.fixups.toList, f.line = n ∧ f.label = label) ↔
      OnLine (lines ++ [ws]) n fun _ ws => JumpsTo ws label := by
  rw [onLine_concat, ← h.fixups]
  rcases ha.fixups with ⟨hsame, hno⟩ | ⟨operand, label', hpush, hjumps⟩
  · rw [hsame, or_iff_left fun hlast => hno label hlast.2]
  · rw [hpush, Array.toList_push]
    simp only [List.mem_append, List.mem_singleton, or_and_right, exists_or, exists_eq_left]
    refine or_congr_right ⟨?_, ?_⟩
    · rintro ⟨rfl, rfl⟩
      exact ⟨rfl, hjumps⟩
    · rintro ⟨rfl, hlast⟩
      exact ⟨rfl, hjumps.unique hlast⟩

theorem fixupsInOrder_concat (h : Noted lines d) (ha : Noting lines (lines.length + 1) ws d d') :
    d'.fixups.toList.Pairwise fun f f' => f.line < f'.line := by
  rcases ha.fixups with ⟨hsame, -⟩ | ⟨operand, label, hpush, -⟩
  · rw [hsame]
    exact h.fixupsInOrder
  · rw [hpush, Array.toList_push]
    refine List.pairwise_append.mpr ⟨h.fixupsInOrder, List.pairwise_singleton _ _, fun f hf f' hf' => ?_⟩
    rw [List.mem_singleton] at hf'
    subst hf'
    exact Nat.lt_succ_of_le ((h.fixups f.line f.label).mp ⟨f, hf, rfl, rfl⟩).bounds.2

/-- What is noted after one more line. -/
theorem concat (h : Noted lines d) (ha : Noting lines (lines.length + 1) ws d d') : Noted (lines ++ [ws]) d' := by
  obtain ⟨es, hlabel, hrest⟩ := ha.errors
  obtain ⟨horder, hle⟩ := hlabel.inOrder (fun e he => Nat.le_succ_of_le (h.line_le he)) h.errorsInOrder
  exact {
    labels := ha.labels
    entry := h.entry_concat ha
    noEntry := h.noEntry_concat ha
    fixups := h.fixups_concat ha
    fixupsInOrder := h.fixupsInOrder_concat ha
    errors := fun n => by
      rw [hrest.mem, hlabel.mem, h.errors, onLine_concat, or_assoc, ← and_or_left, WellFormed,
        Classical.not_and_iff_not_or_not]
    errorsInOrder := (hrest.inOrder hle horder).1
    size := fun hclean => by
      obtain ⟨hfits, hes⟩ := hrest.eq_empty hclean
      obtain ⟨-, hold⟩ := hlabel.eq_empty hes
      rw [ha.size hfits, h.size hold, codeSize_concat] }

end Noted

/-- All lines, one after the other. -/
theorem noted_addLines {ts : List Text} (h : Noted lines d) :
    Noted (lines ++ ts.map fun t => words (withoutComment t)) (d.addLines (lines.length + 1) ts) := by
  induction ts generalizing lines d with
  | nil => simpa [Draft.addLines] using h
  | cons t ts ih =>
    have hline := h.concat (noting_addLine h.labels h.noEntry (lines.length + 1) (words (withoutComment t)))
    have hrest := ih hline
    rw [List.append_assoc, List.length_append] at hrest
    exact hrest

theorem noted_lines (source : Text) : Noted (wordLines source) (Draft.empty.addLines 1 source.lines) :=
  noted_addLines noted_nil

/-! ## After the lines -/

/-- The problem of a jump to a label that is not there. -/
def Fixup.problem (f : Fixup) : Error := ⟨f.line, .undefinedLabel f.label⟩

/-- Each jump to a label that is not there is reported, in the order of the jumps. -/
theorem foldl_patch (fs : List Fixup) (d : Draft) :
    (fs.foldl Draft.patch d).labels = d.labels ∧ (fs.foldl Draft.patch d).entryLine = d.entryLine ∧
      (fs.foldl Draft.patch d).writer.offset = d.writer.offset ∧
      (fs.foldl Draft.patch d).errors.toList =
        d.errors.toList ++ (fs.filter fun f => (d.offsetOf? f.label).isNone).map Fixup.problem := by
  induction fs generalizing d with
  | nil => simp
  | cons f fs ih =>
    obtain ⟨hlabels, hentry, hoffset, herrors⟩ := ih (d.patch f)
    rw [List.foldl_cons]
    cases hf : d.offsetOf? f.label with
    | none =>
      have hpatch : d.patch f = d.report f.line (.undefinedLabel f.label) := by rw [Draft.patch, hf]
      rw [hpatch] at hlabels hentry hoffset herrors ⊢
      refine ⟨hlabels, hentry, hoffset, ?_⟩
      rw [herrors, List.filter_cons_of_pos (by simp [hf])]
      simp [Draft.report, Fixup.problem, Draft.offsetOf?]
    | some o =>
      have hpatch : d.patch f = { d with writer := d.writer.patchJump f.operand (UInt32.ofNat o) } := by
        rw [Draft.patch, hf]
      rw [hpatch] at hlabels hentry hoffset herrors ⊢
      refine ⟨hlabels, hentry, ?_, ?_⟩
      · rw [hoffset]
        simp [Writer.offset, Writer.patchJump]
      · rw [herrors, List.filter_cons_of_neg (by simp [hf])]
        rfl

/-- What can be wrong with the target of the entry, when the code takes `size` bytes. -/
inductive EntryProblem (lines : List (List Text)) (size : Nat) (target : Text) : Problem → Prop
  | undefined : ¬ Defined lines target → Literal.unsigned? target = none →
      EntryProblem lines size target (.undefinedEntry target)
  | pastEnd {v : UInt64} : ¬ Defined lines target → Literal.unsigned? target = some v → size < v.toNat →
      EntryProblem lines size target (.entryPastEnd v.toNat)

/-- The problem that is found with the target of the entry, if any. -/
def Draft.entryProblem? (d : Draft) (target : Text) : Option Problem :=
  match d.offsetOf? target, Literal.unsigned? target with
  | some _, _ => none
  | none, none => some (.undefinedEntry target)
  | none, some v => if d.writer.offset < v.toNat then some (.entryPastEnd v.toNat) else none

theorem entryProblem?_eq_some (hd : LabelsOf lines d) {p : Problem} :
    d.entryProblem? target = some p ↔ EntryProblem lines d.writer.offset target p := by
  have hlabel := hd.defined target
  unfold Draft.entryProblem?
  constructor
  · intro h
    split at h
    next => cases h
    next hnone hv =>
      rw [hnone] at hlabel
      cases h
      exact .undefined (mt hlabel.mpr (by simp)) hv
    next v hnone hv =>
      rw [hnone] at hlabel
      split at h
      next hpast => cases h; exact .pastEnd (mt hlabel.mpr (by simp)) hv hpast
      next => cases h
  · intro h
    have hnone (hno : ¬ Defined lines target) : d.offsetOf? target = none := by
      simpa using mt hlabel.mp hno
    cases h with
    | undefined hno hv => rw [hnone hno, hv]
    | pastEnd hno hv hpast => rw [hnone hno, hv]; exact if_pos hpast

/-- The entry is looked up among the labels, which are all in the code, and only then taken for a number. -/
theorem resolveEntry_eq (hd : LabelsOf lines d) :
    d.resolveEntry.2.writer = d.writer ∧ d.resolveEntry.2.errors.toList = d.errors.toList ++
      (d.entryLine.bind fun e => (d.entryProblem? e.target).map (⟨e.line, ·⟩)).toList := by
  unfold Draft.resolveEntry
  cases d.entryLine with
  | none => simp
  | some e =>
    rcases e with ⟨line, target⟩
    simp only [Draft.entryOffset?, Draft.entryProblem?, Option.bind_some]
    cases hlabel : d.offsetOf? target with
    | some o => simp [Nat.not_lt_of_le (hd.inCode target o hlabel)]
    | none =>
      cases hv : Literal.unsigned? target with
      | none => simp [Draft.report]
      | some v =>
        by_cases hpast : d.writer.offset < v.toNat
        · simp [hpast, Draft.report]
        · simp [hpast]

theorem entryFits_iff : EntryFits lines target ↔ ∀ p, ¬ EntryProblem lines (codeSize lines) target p := by
  constructor
  · rintro (hdefined | ⟨v, hv, hle⟩) p hp
    · cases hp with
      | undefined hno | pastEnd hno => exact hno hdefined
    · cases hp with
      | undefined _ hv' =>
        rw [hv] at hv'
        cases hv'
      | pastEnd _ hv' hpast =>
        rw [hv] at hv'
        cases hv'
        omega
  · intro h
    by_cases hdefined : Defined lines target
    · exact .inl hdefined
    cases hv : Literal.unsigned? target with
    | none => exact absurd (.undefined hdefined hv) (h _)
    | some v =>
      refine .inr ⟨v, hv, Nat.le_of_not_lt fun hpast => ?_⟩
      exact h _ (.pastEnd hdefined hv hpast)

theorem offsetOf?_patchAll (d : Draft) : d.patchAll.offsetOf? = d.offsetOf? := by
  have hlabels := (foldl_patch d.fixups.toList d).1
  rw [Array.foldl_toList] at hlabels
  funext name
  exact congrArg (List.lookup name) hlabels

theorem offset_patchAll (d : Draft) : d.patchAll.writer.offset = d.writer.offset := by
  have hoffset := (foldl_patch d.fixups.toList d).2.2.1
  rwa [Array.foldl_toList] at hoffset

theorem LabelsOf.patchAll (hd : LabelsOf lines d) : LabelsOf lines d.patchAll := by
  constructor
  · rw [offsetOf?_patchAll]
    exact hd.defined
  · rw [offsetOf?_patchAll, offset_patchAll]
    exact hd.inCode

/-- What a source's problems are, by what its lines have left. -/
theorem errors_ofDraft (hd : LabelsOf lines d) :
    (ofDraft d).code.size = d.writer.offset ∧ (ofDraft d).errors.toList =
      d.errors.toList ++ (d.fixups.toList.filter fun f => (d.offsetOf? f.label).isNone).map Fixup.problem ++
        (d.entryLine.bind fun e => (d.patchAll.entryProblem? e.target).map (⟨e.line, ·⟩)).toList := by
  obtain ⟨-, hentry, -, hpatched⟩ := foldl_patch d.fixups.toList d
  rw [Array.foldl_toList] at hentry hpatched
  have hentry : d.patchAll.entryLine = d.entryLine := hentry
  have hpatched : d.patchAll.errors.toList = _ := hpatched
  obtain ⟨hwriter, herrors⟩ := resolveEntry_eq hd.patchAll
  rw [hpatched, hentry] at herrors
  refine ⟨?_, herrors⟩
  show d.patchAll.resolveEntry.2.writer.offset = d.writer.offset
  rw [hwriter, offset_patchAll]

/-! ## All problems -/

/-- The problems of a source: of its lines, of the jumps and of the entry. -/
structure Reported (source : Text) (ofLines ofJumps ofEntry : List Error) : Prop where
  errors : (assemble source).errors.toList = ofLines ++ ofJumps ++ ofEntry
  /-- There is a problem on each line that does not fit the lines before it, and on no other. -/
  lines : ∀ n, (∃ e ∈ ofLines, e.line = n) ↔ OnLine (wordLines source) n fun before ws => ¬ WellFormed before ws
  linesInOrder : ofLines.Pairwise fun e e' => e.line ≤ e'.line
  /-- There is one problem for each jump to a label that is not defined. -/
  jumps : ∀ e, e ∈ ofJumps ↔ ∃ label, e.problem = .undefinedLabel label ∧ ¬ Defined (wordLines source) label ∧
    OnLine (wordLines source) e.line fun _ ws => JumpsTo ws label
  jumpsInOrder : ofJumps.Pairwise fun e e' => e.line < e'.line
  /-- The entry that counts is the first one. -/
  entry : ∀ e, e ∈ ofEntry ↔ ∃ target, EntryProblem (wordLines source) (assemble source).code.size target e.problem ∧
    OnLine (wordLines source) e.line fun before ws => Enters ws target ∧ NoEntry before
  entryOnce : ofEntry.length ≤ 1
  /-- If all lines fit, they make up the code. -/
  size : ofLines = [] → (assemble source).code.size = codeSize (wordLines source)

theorem mem_jumpProblems (h : Noted lines d) {e : Error} :
    e ∈ (d.fixups.toList.filter fun f => (d.offsetOf? f.label).isNone).map Fixup.problem ↔
      ∃ label, e.problem = .undefinedLabel label ∧ ¬ Defined lines label ∧
        OnLine lines e.line fun _ ws => JumpsTo ws label := by
  simp only [List.mem_map, List.mem_filter]
  constructor
  · rintro ⟨f, ⟨hf, hnone⟩, rfl⟩
    refine ⟨f.label, rfl, fun hdefined => ?_, (h.fixups f.line f.label).mp ⟨f, hf, rfl, rfl⟩⟩
    rw [← h.labels.defined] at hdefined
    rw [Option.isNone_iff_eq_none] at hnone
    rw [hnone] at hdefined
    cases hdefined
  · rintro ⟨label, hproblem, hno, hline⟩
    obtain ⟨f, hf, hfline, rfl⟩ := (h.fixups e.line label).mpr hline
    refine ⟨f, ⟨hf, ?_⟩, ?_⟩
    · simpa using mt (h.labels.defined f.label).mp hno
    · rcases e with ⟨line, problem⟩
      obtain rfl : problem = .undefinedLabel f.label := hproblem
      rw [Fixup.problem, hfline]

theorem mem_entryProblem (h : Noted lines d) {e : Error} :
    e ∈ (d.entryLine.bind fun x => (d.patchAll.entryProblem? x.target).map (⟨x.line, ·⟩)).toList ↔
      ∃ target, EntryProblem lines d.writer.offset target e.problem ∧
        OnLine lines e.line fun before ws => Enters ws target ∧ NoEntry before := by
  rw [← offset_patchAll]
  simp only [Option.mem_toList, Option.bind_eq_some_iff, Option.map_eq_some_iff, entryProblem?_eq_some h.labels.patchAll]
  constructor
  · rintro ⟨x, hx, p, hp, rfl⟩
    exact ⟨x.target, hp, (h.entry x.line x.target).mp hx⟩
  · rintro ⟨target, hp, hline⟩
    exact ⟨_, (h.entry e.line target).mpr hline, e.problem, hp, rfl⟩

theorem reported (source : Text) : ∃ ofLines ofJumps ofEntry, Reported source ofLines ofJumps ofEntry := by
  have h := noted_lines source
  have ha : assemble source = ofDraft (Draft.empty.addLines 1 source.lines) := rfl
  generalize Draft.empty.addLines 1 source.lines = d at h ha
  obtain ⟨hcode, herrors⟩ := errors_ofDraft h.labels
  rw [← ha] at hcode herrors
  exact ⟨_, _, _, {
    errors := herrors
    lines := h.errors
    linesInOrder := h.errorsInOrder
    jumps := fun e => mem_jumpProblems h
    jumpsInOrder := List.pairwise_map.mpr (h.fixupsInOrder.filter _)
    entry := fun e => by rw [hcode]; exact mem_entryProblem h
    entryOnce := by
      cases d.entryLine.bind fun x => (d.patchAll.entryProblem? x.target).map (Error.mk x.line) <;> simp
    size := fun hnone => hcode.trans (h.size (Array.toList_eq_nil_iff.mp hnone)) }⟩

namespace Reported

variable {source : Text} {ofLines ofJumps ofEntry : List Error}

/-- Every problem is on a line of the source. -/
theorem bounds (h : Reported source ofLines ofJumps ofEntry) {e : Error} (he : e ∈ (assemble source).errors.toList) :
    1 ≤ e.line ∧ e.line ≤ source.lines.length := by
  have hlength : (wordLines source).length = source.lines.length := List.length_map _
  rw [h.errors, List.mem_append, List.mem_append] at he
  rw [← hlength]
  rcases he with (he | he) | he
  · exact ((h.lines e.line).mp ⟨e, he, rfl⟩).bounds
  · obtain ⟨label, -, -, hline⟩ := (h.jumps e).mp he
    exact hline.bounds
  · obtain ⟨target, -, hline⟩ := (h.entry e).mp he
    exact hline.bounds

theorem ofLines_eq_nil (h : Reported source ofLines ofJumps ofEntry) :
    ofLines = [] ↔ ∀ before ws after, wordLines source = before ++ ws :: after → WellFormed before ws := by
  constructor
  · intro hnone before ws after heq
    apply Classical.byContradiction
    intro hbad
    obtain ⟨e, he, -⟩ := (h.lines (before.length + 1)).mpr ⟨before, ws, after, heq, rfl, hbad⟩
    rw [hnone] at he
    cases he
  · intro hall
    apply List.eq_nil_iff_forall_not_mem.mpr
    intro e he
    obtain ⟨before, ws, after, heq, -, hbad⟩ := (h.lines e.line).mp ⟨e, he, rfl⟩
    exact hbad (hall before ws after heq)

theorem ofJumps_eq_nil (h : Reported source ofLines ofJumps ofEntry) : ofJumps = [] ↔
    ∀ ws ∈ wordLines source, ∀ label, JumpsTo ws label → Defined (wordLines source) label := by
  constructor
  · intro hnone ws hws label hjumps
    apply Classical.byContradiction
    intro hno
    obtain ⟨n, hline⟩ := exists_onLine_of_mem (P := fun _ ws => JumpsTo ws label) hws fun _ => hjumps
    have he := (h.jumps ⟨n, .undefinedLabel label⟩).mpr ⟨label, rfl, hno, hline⟩
    rw [hnone] at he
    cases he
  · intro hall
    apply List.eq_nil_iff_forall_not_mem.mpr
    intro e he
    obtain ⟨label, -, hno, before, ws, after, heq, -, hjumps⟩ := (h.jumps e).mp he
    exact hno (hall ws (by simp [heq]) label hjumps)

theorem ofEntry_eq_nil (h : Reported source ofLines ofJumps ofEntry) (hlines : ofLines = []) : ofEntry = [] ↔
    ∀ ws ∈ wordLines source, ∀ target, Enters ws target → EntryFits (wordLines source) target := by
  have hsize := h.size hlines
  constructor
  · intro hnone ws hws target henters
    apply entryFits_iff.mpr
    intro p hp
    obtain ⟨before, after, heq⟩ := List.append_of_mem hws
    -- the lines all fit, so the first entry is the only one
    have hfirst : NoEntry before := (h.ofLines_eq_nil.mp hlines before ws after heq).2.2 target henters
    have he := (h.entry ⟨before.length + 1, p⟩).mpr
      ⟨target, by rw [hsize]; exact hp, before, ws, after, heq, rfl, henters, hfirst⟩
    rw [hnone] at he
    cases he
  · intro hall
    apply List.eq_nil_iff_forall_not_mem.mpr
    intro e he
    obtain ⟨target, hp, before, ws, after, heq, -, henters, -⟩ := (h.entry e).mp he
    rw [hsize] at hp
    exact entryFits_iff.mp (hall ws (by simp [heq]) target henters) e.problem hp

theorem ok_iff (h : Reported source ofLines ofJumps ofEntry) :
    (assemble source).ok = true ↔ InDialect (wordLines source) := by
  rw [ok, Array.isEmpty_iff, ← Array.toList_eq_nil_iff, h.errors, List.append_eq_nil_iff, List.append_eq_nil_iff]
  constructor
  · rintro ⟨⟨hlines, hjumps⟩, hentry⟩
    exact {
      wellFormed := h.ofLines_eq_nil.mp hlines
      jumps := h.ofJumps_eq_nil.mp hjumps
      entry := (h.ofEntry_eq_nil hlines).mp hentry }
  · intro hdialect
    have hlines := h.ofLines_eq_nil.mpr hdialect.wellFormed
    exact ⟨⟨hlines, h.ofJumps_eq_nil.mpr hdialect.jumps⟩, (h.ofEntry_eq_nil hlines).mpr hdialect.entry⟩

end Reported

/-- A source is accepted exactly if it is in the dialect. Otherwise there are problems, each on a line of the source:
first those of the lines, from the first line to the last, then one for each jump to a label that is not defined, in
the order of the source, and then at most one for the entry. -/
theorem assemble_dialect (source : Text) : ((assemble source).ok = true ↔ InDialect (wordLines source)) ∧
    (∃ ofLines ofJumps ofEntry, Reported source ofLines ofJumps ofEntry) ∧
    ∀ e ∈ (assemble source).errors.toList, 1 ≤ e.line ∧ e.line ≤ source.lines.length := by
  obtain ⟨ofLines, ofJumps, ofEntry, h⟩ := reported source
  exact ⟨h.ok_iff, ⟨ofLines, ofJumps, ofEntry, h⟩, fun e he => h.bounds he⟩

/-- A source in which all three kinds of problems are found. -/
example : (assemble (Text.ofString "jump away\nfly\n.entry 7")).errors.toList.map (·.line) = [2, 1, 3] := by
  decide +kernel

end Assembly

end StackVM
