/-
  StackVM.Proofs.Assembly.Recasting — a source under other label names and line numbers.

  What the assembler makes of a source depends on the words of its lines alone, and what it notes down meanwhile are
  names of labels and numbers of lines. It compares the names and does nothing else with them, and with the numbers it
  does nothing at all. So if the labels go by other names, different ones, and the lines have other numbers, everything
  that was noted is noted again under the new names and numbers, and the code is the same.

  - `assemble_eq`: assembling goes by the words of the lines.
  - `Renames τ K`: what is asked of the new names of the labels in `K`.
  - `Draft.recast`: a draft under new names and numbers.
  - `addWords_recast`, `patchAll_recast`, `resolveEntry_recast`: the lines, the jumps and the entry.
  - `ofDraft_recast`: what comes out is the same under the new names and numbers.
-/

import StackVM.Proofs.Assembly.Literals

namespace StackVM

namespace Assembly

open TwoPass (wordLines)

/-! ## Lines as words -/

/-- Reads lines that are given as words, the first of which has the number `line`. -/
def Draft.addWords (d : Draft) (line : Nat) : List (List Text) → Draft
  | [] => d
  | ws :: lines => (d.addLine line (Line.ofWords ws)).addWords (line + 1) lines

theorem Draft.addLines_eq (d : Draft) (line : Nat) (ts : List Text) :
    d.addLines line ts = d.addWords line (ts.map fun t => words (withoutComment t)) := by
  induction ts generalizing d line with
  | nil => rfl
  | cons t ts ih => exact ih _ _

theorem Draft.addWords_append (d : Draft) (line : Nat) (lines lines' : List (List Text)) :
    d.addWords line (lines ++ lines') = (d.addWords line lines).addWords (line + lines.length) lines' := by
  induction lines generalizing d line with
  | nil => rfl
  | cons ws lines ih =>
    rw [List.cons_append, addWords, ih, addWords, List.length_cons, Nat.add_assoc, Nat.add_comm 1]

/-- Assembles lines that are given as words. -/
def assembleWords (lines : List (List Text)) : Assembly := .ofDraft (Draft.empty.addWords 1 lines)

theorem assemble_eq (source : Text) : assemble source = assembleWords (wordLines source) := by
  rw [assemble, Draft.addLines_eq, assembleWords, wordLines]

/-! ## New names and numbers -/

/-- The labels in `K` get names that are labels and different from each other; what is no label stays as it is. -/
structure Renames (τ : Text → Text) (K : Text → Prop) : Prop where
  label : ∀ t, K t → isLabelName (τ t) = isLabelName t
  other : ∀ t, isLabelName t = false → τ t = t
  apart : ∀ t u, K t → K u → τ t = τ u → t = u

theorem renames_id : Renames id fun _ => True := ⟨fun _ _ => rfl, fun _ _ => rfl, fun _ _ _ _ h => h⟩

section

variable (f : Nat → Nat) (τ : Text → Text)

/-- Problems of operands are no problems of labels. -/
def Problem.recast : Problem → Problem
  | invalidLabel name => invalidLabel (τ name)
  | duplicateLabel name => duplicateLabel (τ name)
  | undefinedLabel name => undefinedLabel (τ name)
  | undefinedEntry name => undefinedEntry (τ name)
  | p => p

def Error.recast (e : Error) : Error := ⟨f e.line, e.problem.recast τ⟩

def Piece.recast : Piece → Piece
  | whole i => whole i
  | jumpTo op label => jumpTo op (τ label)

def Statement.recast : Statement → Statement
  | nothing => nothing
  | piece p => piece (p.recast τ)
  | entry target => entry (τ target)
  | faulty p => faulty (p.recast τ)

def Line.recast (l : Line) : Line := ⟨l.label?.map τ, l.statement.recast τ⟩

def Fixup.recast (x : Fixup) : Fixup := ⟨x.operand, τ x.label, f x.line⟩

def EntryLine.recast (e : EntryLine) : EntryLine := ⟨f e.line, τ e.target⟩

def Draft.recast (d : Draft) : Draft where
  writer := d.writer
  labels := d.labels.map fun l => (τ l.1, l.2)
  fixups := d.fixups.map (Fixup.recast f τ)
  entryLine := d.entryLine.map (EntryLine.recast f τ)
  errors := d.errors.map (Error.recast f τ)

/-- The same code and entry, with the problems under new names and numbers. -/
def recast (a : Assembly) : Assembly := ⟨a.entry, a.code, a.errors.map (Error.recast f τ)⟩

end

/-! ## What is known of the names -/

variable (K : Text → Prop)

def Statement.Within : Statement → Prop
  | piece (.jumpTo _ label) => K label
  | entry target => K target
  | _ => True

structure Line.Within (l : Line) : Prop where
  label : ∀ name ∈ l.label?, K name
  statement : l.statement.Within K

/-- All names that a draft holds are in `K`. -/
structure Draft.Within (d : Draft) : Prop where
  labels : ∀ l ∈ d.labels, K l.1
  fixups : ∀ x ∈ d.fixups, K x.label
  entry : ∀ e ∈ d.entryLine, K e.target

variable {K} {f : Nat → Nat} {τ : Text → Text} {d : Draft} {name : Text}

theorem Draft.within_empty : Draft.empty.Within K where
  labels := by simp [Draft.empty]
  fixups := by simp [Draft.empty]
  entry := by simp [Draft.empty]

theorem Draft.recast_empty : Draft.empty.recast f τ = .empty := by
  simp [recast, empty]

theorem Draft.Within.report (hd : d.Within K) (n : Nat) (p : Problem) : (d.report n p).Within K :=
  ⟨hd.labels, hd.fixups, hd.entry⟩

theorem Draft.report_recast (n : Nat) (p : Problem) :
    (d.recast f τ).report (f n) (p.recast τ) = (d.report n p).recast f τ := by
  simp [report, recast, Error.recast]

/-- A label stands where it stood. -/
theorem Draft.offsetOf?_recast (hτ : Renames τ K) (hd : d.Within K) (hname : K name) :
    (d.recast f τ).offsetOf? (τ name) = d.offsetOf? name := by
  have hlabels := hd.labels
  show (d.labels.map fun l => (τ l.1, l.2)).lookup (τ name) = d.labels.lookup name
  generalize d.labels = ls at hlabels
  induction ls with
  | nil => rfl
  | cons l ls ih =>
    have hiff : (τ name == τ l.1) = (name == l.1) := by
      rw [Bool.eq_iff_iff, beq_iff_eq, beq_iff_eq]
      exact ⟨hτ.apart _ _ hname (hlabels l List.mem_cons_self), congrArg τ⟩
    rw [List.map_cons, List.lookup_cons, List.lookup_cons, hiff, ih fun x hx => hlabels x (List.mem_cons_of_mem _ hx)]

/-! ## Lines -/

/-- The line `ws'` is `ws` under new names. -/
structure Recasts (τ : Text → Text) (K : Text → Prop) (ws ws' : List Text) : Prop where
  within : (Line.ofWords ws).Within K
  eq : Line.ofWords ws' = (Line.ofWords ws).recast τ

namespace Draft

theorem define_recast (hτ : Renames τ K) (hd : d.Within K) (hname : K name) (n : Nat) :
    (d.recast f τ).define (f n) (τ name) = (d.define n name).recast f τ ∧ (d.define n name).Within K := by
  unfold define
  rw [hτ.label name hname, offsetOf?_recast hτ hd hname]
  split
  next => exact ⟨report_recast n (.invalidLabel name), hd.report n _⟩
  next =>
    split
    next => exact ⟨report_recast n (.duplicateLabel name), hd.report n _⟩
    next => exact ⟨rfl, List.forall_mem_cons.mpr ⟨hname, hd.labels⟩, hd.fixups, hd.entry⟩

theorem addStatement_recast (hd : d.Within K) {st : Statement} (hst : st.Within K) (n : Nat) :
    (d.recast f τ).addStatement (f n) (st.recast τ) = (d.addStatement n st).recast f τ ∧
      (d.addStatement n st).Within K := by
  cases st with
  | nothing => exact ⟨rfl, hd⟩
  | faulty p => exact ⟨report_recast n p, hd.report n p⟩
  | piece p =>
    cases p with
    | whole i => exact ⟨rfl, hd.labels, hd.fixups, hd.entry⟩
    | jumpTo op label =>
      refine ⟨?_, hd.labels, fun x hx => ?_, hd.entry⟩
      · simp [addStatement, Statement.recast, Piece.recast, addPiece, recast, Fixup.recast]
      · rcases Array.mem_push.mp hx with hx | rfl
        · exact hd.fixups x hx
        · exact hst
  | entry target =>
    have hsome : (d.recast f τ).entryLine.isSome = d.entryLine.isSome := Option.isSome_map
    simp only [Statement.recast, addStatement, hsome]
    split
    next => exact ⟨report_recast n .duplicateEntry, hd.report n _⟩
    next =>
      refine ⟨rfl, hd.labels, hd.fixups, fun e he => ?_⟩
      cases he
      exact hst

theorem addLine_recast (hτ : Renames τ K) (hd : d.Within K) {l : Line} (hl : l.Within K) (n : Nat) :
    (d.recast f τ).addLine (f n) (l.recast τ) = (d.addLine n l).recast f τ ∧ (d.addLine n l).Within K := by
  rcases l with ⟨_ | name, st⟩
  · exact addStatement_recast hd hl.statement n
  · obtain ⟨hdefine, hwithin⟩ := define_recast (f := f) hτ hd (hl.label name rfl) n
    obtain ⟨hadd, hall⟩ := addStatement_recast (f := f) (τ := τ) hwithin hl.statement n
    refine ⟨?_, hall⟩
    show ((d.recast f τ).define (f n) (τ name)).addStatement (f n) (st.recast τ) = _
    rw [hdefine, hadd]
    rfl

/-- As long as lines that follow one another do so in the new numbers, too. -/
theorem addWords_recast (hτ : Renames τ K) (hd : d.Within K) (lines : List (List Text)) {g : List Text → List Text}
    (hlines : ∀ ws ∈ lines, Recasts τ K ws (g ws)) (n : Nat)
    (hf : ∀ m, n ≤ m → m + 1 < n + lines.length → f (m + 1) = f m + 1) :
    (d.recast f τ).addWords (f n) (lines.map g) = (d.addWords n lines).recast f τ ∧ (d.addWords n lines).Within K := by
  induction lines generalizing d n with
  | nil => exact ⟨rfl, hd⟩
  | cons ws lines ih =>
    obtain ⟨hws, heq⟩ := hlines ws List.mem_cons_self
    obtain ⟨hline, hd'⟩ := addLine_recast (f := f) hτ hd hws n
    obtain ⟨hrest, hall⟩ := ih hd' (fun ws' h => hlines ws' (List.mem_cons_of_mem _ h)) (n + 1) fun m hm hlt =>
      hf m (by omega) (by rw [List.length_cons]; omega)
    refine ⟨?_, hall⟩
    rw [List.map_cons, addWords, heq, hline, addWords, ← hrest]
    cases lines with
    | nil => rfl
    | cons ws' lines => rw [hf n (Nat.le_refl n) (by simp)]

/-! ## Jumps and entry -/

theorem patch_recast (hτ : Renames τ K) (hd : d.Within K) {x : Fixup} (hx : K x.label) :
    (d.recast f τ).patch (x.recast f τ) = (d.patch x).recast f τ ∧ (d.patch x).Within K := by
  have hoffset : (d.recast f τ).offsetOf? (x.recast f τ).label = d.offsetOf? x.label := offsetOf?_recast hτ hd hx
  unfold patch
  rw [hoffset]
  cases d.offsetOf? x.label with
  | none => exact ⟨report_recast x.line (.undefinedLabel x.label), hd.report _ _⟩
  | some offset => exact ⟨rfl, hd.labels, hd.fixups, hd.entry⟩

theorem foldl_patch_recast (hτ : Renames τ K) (hd : d.Within K) (xs : List Fixup) (hxs : ∀ x ∈ xs, K x.label) :
    (xs.map (Fixup.recast f τ)).foldl patch (d.recast f τ) = (xs.foldl patch d).recast f τ ∧
      (xs.foldl patch d).Within K := by
  induction xs generalizing d with
  | nil => exact ⟨rfl, hd⟩
  | cons x xs ih =>
    obtain ⟨hpatch, hd'⟩ := patch_recast (f := f) hτ hd (hxs x List.mem_cons_self)
    rw [List.map_cons, List.foldl_cons, hpatch]
    exact ih hd' fun y hy => hxs y (List.mem_cons_of_mem _ hy)

theorem patchAll_recast (hτ : Renames τ K) (hd : d.Within K) :
    (d.recast f τ).patchAll = d.patchAll.recast f τ ∧ d.patchAll.Within K := by
  have hall := foldl_patch_recast (f := f) hτ hd d.fixups.toList fun x hx => hd.fixups x (Array.mem_toList_iff.mp hx)
  unfold patchAll
  rw [← Array.foldl_toList, ← Array.foldl_toList]
  simpa [recast] using hall

end Draft

/-- A label is no number. -/
theorem unsigned?_of_label {t : Text} (ht : isLabelName t = true) : Literal.unsigned? t = none := by
  cases t with
  | nil => cases ht
  | cons b rest =>
    rw [isLabelName, Bool.and_eq_true] at ht
    have hdigit : Text.isDigit b = false :=
      forall_byte (P := fun b => (Text.isLetter b || b == Text.byte '_') = true → Text.isDigit b = false)
        (by decide +kernel) b ht.1
    simp [Literal.unsigned?, hdigit]

namespace Draft

/-- The entry is looked up under its new name; a number stays the same number. -/
theorem entryOffset?_recast (hτ : Renames τ K) (hd : d.Within K) {target : Text} (ht : K target) :
    (d.recast f τ).entryOffset? (τ target) = d.entryOffset? target := by
  unfold entryOffset?
  rw [offsetOf?_recast hτ hd ht]
  have hnumber : Literal.unsigned? (τ target) = Literal.unsigned? target := by
    cases hlabel : isLabelName target with
    | false => rw [hτ.other target hlabel]
    | true => rw [unsigned?_of_label hlabel, unsigned?_of_label ((hτ.label target ht).trans hlabel)]
  rw [hnumber]

theorem resolveEntry_recast (hτ : Renames τ K) (hd : d.Within K) :
    (d.recast f τ).resolveEntry = (d.resolveEntry.1, d.resolveEntry.2.recast f τ) := by
  cases he : d.entryLine with
  | none => simp [resolveEntry, he, recast]
  | some e =>
    have he' : (d.recast f τ).entryLine = some ⟨f e.line, τ e.target⟩ := by
      simp [recast, he, EntryLine.recast]
    simp only [resolveEntry, he, he', entryOffset?_recast hτ hd (hd.entry e he)]
    cases d.entryOffset? e.target with
    | none => exact congrArg (Prod.mk 0) (report_recast e.line (.undefinedEntry e.target))
    | some offset =>
      have hwriter : (d.recast f τ).writer = d.writer := rfl
      by_cases hpast : d.writer.offset < offset
      · simp only [hwriter, if_pos hpast]
        exact congrArg (Prod.mk 0) (report_recast e.line (.entryPastEnd offset))
      · simp only [hwriter, if_neg hpast]

end Draft

theorem ok_recast (a : Assembly) : (a.recast f τ).ok = a.ok := by
  simp [ok, recast, Array.isEmpty]

theorem ofDraft_recast (hτ : Renames τ K) (hd : d.Within K) :
    ofDraft (d.recast f τ) = (ofDraft d).recast f τ := by
  obtain ⟨hpatch, hd'⟩ := Draft.patchAll_recast (f := f) hτ hd
  rw [ofDraft, hpatch, Draft.resolveEntry_recast hτ hd']
  rfl

end Assembly

end StackVM
