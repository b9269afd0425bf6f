/-
  StackVM.Proofs.Command.Assembling — what `asm` does to the files.

  The arguments of `asm` are read, the source is loaded and only then is something done: the directories above the
  target are made, and the image is stored as the last thing. So a run that fails leaves every regular file as it was,
  and one that fails before there is an image leaves everything as it was. A run that succeeds has stored the image of
  the source, and no other regular file has changed.

  - `Argument`, `items_of_read`, `items_unique`: an argument list as options, each with its value, and words.
  - `Ready`, `Ready.unique`: there is an image, and where it goes.
  - `asm_cases`: a run gives up at once, or it is ready and comes to what storing the image comes to.
  - `asm_files`: all that a run may do to the files.
-/

import StackVM.Proofs.Command.Routes

namespace StackVM

namespace Command

open Text (ofString)
open FileM (run_bind)
open FileTree (Kept)

/-! ## The arguments -/

/-- A part of an argument list. -/
inductive Argument
  | option (name value : Text)
  | word (text : Text)

namespace Argument

def spelled : Argument → List Text
  | option name value => [name, value]
  | word text => [text]

/-- An option has the name of one, and a word has not. -/
def Proper : Argument → Prop
  | option name _ => isTargetOption name = true
  | word text => isTargetOption text = false

def value? : Argument → Option Text
  | option _ value => some value
  | word _ => none

def word? : Argument → Option Text
  | option _ _ => none
  | word text => some text

end Argument

/-- A source that was given, as a list. -/
def given (source : Text) : List Text := if source.isEmpty then [] else [source]

theorem given_nil : given [] = [] := rfl

theorem given_of_ne_nil {source : Text} (h : source ≠ []) : given source = [source] := by
  rw [given, if_neg (by simpa using h)]

theorem blanks_cons {word source : Text} {words : List Text} {k : Nat}
    (h : given word ++ words = List.replicate k [] ++ given source) :
    ∃ k, word :: words = List.replicate k [] ++ given source := by
  by_cases hword : word = []
  · subst hword
    rw [given_nil, List.nil_append] at h
    exact ⟨k + 1, by rw [h, List.replicate_succ, List.cons_append]⟩
  · rw [given_of_ne_nil hword, List.singleton_append] at h
    exact ⟨k, h⟩

/-- Arguments that can be read are options and words. The last value counts, and no word follows the first one that is
not empty. -/
theorem items_of_read {a b : AsmArguments} {arguments : List Text} (h : a.read arguments = .ok b) :
    ∃ items : List Argument, arguments = items.flatMap Argument.spelled ∧ (∀ x ∈ items, x.Proper) ∧
      b.target = (items.filterMap Argument.value?).getLast?.getD a.target ∧
      ∃ k, given a.source ++ items.filterMap Argument.word? = List.replicate k [] ++ given b.source := by
  induction a, arguments using AsmArguments.read.induct with
  | case1 a =>
    cases h
    exact ⟨[], rfl, by simp, rfl, 0, by simp⟩
  | case2 a argument hoption =>
    rw [AsmArguments.read, if_pos hoption] at h
    cases h
  | case3 a argument hoption hnone =>
    rw [AsmArguments.read, if_neg hoption, if_pos hnone] at h
    cases h
    have hproper : isTargetOption argument = false := Bool.eq_false_iff.mpr hoption
    refine ⟨[.word argument], rfl, by simpa [Argument.Proper] using hproper, rfl, ?_⟩
    rw [given, if_pos hnone]
    exact blanks_cons (k := 0) (List.append_nil _)
  | case4 a argument hoption hnone =>
    rw [AsmArguments.read, if_neg hoption, if_neg hnone] at h
    cases h
  | case5 a argument value rest hoption ih =>
    rw [AsmArguments.read, if_pos hoption] at h
    obtain ⟨items, rfl, hproper, htarget, hwords⟩ := ih h
    refine ⟨.option argument value :: items, rfl, List.forall_mem_cons.mpr ⟨hoption, hproper⟩, ?_, hwords⟩
    show b.target = (value :: items.filterMap Argument.value?).getLast?.getD a.target
    rw [htarget, List.getLast?_cons, Option.getD_some]
  | case6 a argument value rest hoption hnone ih =>
    rw [AsmArguments.read, if_neg hoption, if_pos hnone] at h
    obtain ⟨items, hspelled, hproper, htarget, k, hwords⟩ := ih h
    refine ⟨.word argument :: items, by rw [hspelled]; rfl,
      List.forall_mem_cons.mpr ⟨Bool.eq_false_iff.mpr hoption, hproper⟩, htarget, ?_⟩
    rw [given, if_pos hnone]
    exact blanks_cons hwords
  | case7 a argument value rest hoption hnone =>
    rw [AsmArguments.read, if_neg hoption, if_neg hnone] at h
    cases h

/-- There is one way to take an argument list apart: an option's name is no word. -/
theorem items_unique {items items' : List Argument} (hproper : ∀ x ∈ items, x.Proper)
    (hproper' : ∀ x ∈ items', x.Proper)
    (hsame : items.flatMap Argument.spelled = items'.flatMap Argument.spelled) : items = items' := by
  have hclash : ∀ {text : Text}, isTargetOption text = true → ¬ isTargetOption text = false := by
    intro text htrue hfalse
    rw [htrue] at hfalse
    cases hfalse
  induction items generalizing items' with
  | nil =>
    cases items' with
    | nil => rfl
    | cons x' items' => cases x' <;> cases hsame
  | cons x items ih =>
    obtain ⟨hx, hitems⟩ := List.forall_mem_cons.mp hproper
    cases items' with
    | nil => cases x <;> cases hsame
    | cons x' items' =>
      obtain ⟨hx', hitems'⟩ := List.forall_mem_cons.mp hproper'
      rw [List.flatMap_cons, List.flatMap_cons] at hsame
      cases x with
      | option name value =>
        cases x' with
        | option name' value' =>
          simp only [Argument.spelled, List.cons_append, List.nil_append, List.cons.injEq] at hsame
          obtain ⟨rfl, rfl, hsame⟩ := hsame
          rw [ih hitems hitems' hsame]
        | word text =>
          obtain ⟨rfl, -⟩ := List.cons.inj hsame
          exact absurd hx' (hclash hx)
      | word text =>
        cases x' with
        | option name value =>
          obtain ⟨rfl, -⟩ := List.cons.inj hsame
          exact absurd hx (hclash hx')
        | word text' =>
          simp only [Argument.spelled, List.cons_append, List.nil_append, List.cons.injEq] at hsame
          obtain ⟨rfl, hsame⟩ := hsame
          rw [ih hitems hitems' hsame]

/-- Where the image goes: to the last target that was given, if it is not empty, or else beside the source. -/
def targetOf (source : Text) (values : List Text) : Text :=
  match values.getLast? with
  | some (b :: rest) => b :: rest
  | _ => Path.withExtension source imageExtension

theorem imagePath_eq {a : AsmArguments} {values : List Text} (h : a.target = values.getLast?.getD []) :
    a.imagePath = targetOf a.source values := by
  rw [AsmArguments.imagePath, targetOf, h]
  cases values.getLast? with
  | none => rfl
  | some value => cases value <;> rfl

/-- Without a target the image stands beside the source: the base is the same, and the extension is that of images. -/
theorem targetOf_nil {source base : Text} (hbase : source = base ++ Path.extension source) :
    targetOf source [] = base ++ imageExtension := Path.withExtension_of_base hbase imageExtension

/-! ## The run -/

/-- There is an image to be stored: nothing is wrong with the arguments, the source's extension, the source's file or
the source itself. -/
structure Ready (t : FileTree) (arguments : List Text) (source target text : Text) : Prop where
  /-- One word names the source, and nothing but options and empty words stands before it, and nothing but options
  behind it. -/
  arguments : ∃ items : List Argument, arguments = items.flatMap Argument.spelled ∧ (∀ x ∈ items, x.Proper) ∧
    (∃ k, items.filterMap Argument.word? = List.replicate k [] ++ [source]) ∧
    target = targetOf source (items.filterMap Argument.value?)
  named : source ≠ []
  extension : Path.extension source = ofString ".vna"
  reads : Reads t source text
  assembles : (assemble text).ok = true

theorem Ready.unique {t : FileTree} {arguments : List Text} {source source' target target' text text' : Text}
    (h : Ready t arguments source target text) (h' : Ready t arguments source' target' text') :
    source = source' ∧ target = target' ∧ text = text' := by
  obtain ⟨items, hspelled, hproper, ⟨k, hwords⟩, htarget⟩ := h.arguments
  obtain ⟨items', hspelled', hproper', ⟨k', hwords'⟩, htarget'⟩ := h'.arguments
  obtain rfl := items_unique hproper hproper' (hspelled.symm.trans hspelled')
  obtain ⟨-, hsource⟩ := List.append_inj' (hwords.symm.trans hwords') rfl
  obtain rfl := List.singleton_inj.mp hsource
  exact ⟨rfl, htarget.trans htarget'.symm, h.reads.unique h'.reads⟩

/-- A run gives up without having done anything, or it is ready and comes to what storing the image comes to. -/
theorem asm_cases (t : FileTree) (arguments : List Text) :
    (∃ r, (asm arguments : FileM Result).run t = (r, t) ∧ r.exit = 1) ∨
    ∃ source target text, Ready t arguments source target text ∧
      ∃ r, (asm arguments : FileM Result).run t =
          (r, ((writeImage target (imageFrom text) : FileM _).run t).2) ∧
        r.exit = if ((writeImage target (imageFrom text) : FileM _).run t).1.1 then 0 else 1 := by
  unfold asm
  cases hread : AsmArguments.read ⟨[], []⟩ arguments with
  | error message => exact .inl ⟨_, rfl, rfl⟩
  | ok a =>
    dsimp only
    by_cases hempty : a.source.isEmpty = true
    · rw [if_pos hempty]
      exact .inl ⟨_, rfl, rfl⟩
    rw [if_neg hempty]
    by_cases hother : (!isSource a.source) = true
    · rw [if_pos hother]
      exact .inl ⟨_, rfl, rfl⟩
    have hsource : isSource a.source = true := by simpa using hother
    rw [if_neg hother, run_bind, loadCode, if_pos hsource]
    rcases loadSource_cases a.source t with ⟨log, hload⟩ | ⟨text, hreads, hok, hload⟩
    · rw [hload]
      exact .inl ⟨_, rfl, rfl⟩
    have hnamed : a.source ≠ [] := by simpa using hempty
    obtain ⟨items, hspelled, hproper, htarget, k, hwords⟩ := items_of_read hread
    rw [given_nil, List.nil_append, given_of_ne_nil hnamed] at hwords
    refine .inr ⟨a.source, a.imagePath, text, ⟨⟨items, hspelled, hproper, ⟨k, hwords⟩, imagePath_eq htarget⟩, hnamed,
      beq_iff_eq.mp hsource, hreads, hok⟩, ?_⟩
    rw [hload]
    exact ⟨_, rfl, rfl⟩

/-- What stands at a location is no regular file in either tree or the same one in both. -/
def SameFile (t t' : FileTree) (l : Location) : Prop :=
  ∀ bytes, t'.node? l = some (.file bytes) ↔ t.node? l = some (.file bytes)

/-- A run that fails leaves every regular file as it was, and does nothing at all unless it is ready. What else it may
have done is to make directories above the target. A run that succeeds has been ready, the target holds the image of the
source, and no other regular file has changed. -/
theorem asm_files (t : FileTree) (arguments : List Text) :
    ∃ r t', (asm arguments : FileM Result).run t = (r, t') ∧ (r.exit = 0 ∨ r.exit = 1) ∧
      (r.exit = 1 → ∀ l, SameFile t t' l) ∧
      ((¬ ∃ source target text, Ready t arguments source target text) → r.exit = 1 ∧ t' = t) ∧
      ∀ source target text, Ready t arguments source target text →
        (r.exit = 1 → ∀ l, Kept target t t' l) ∧
        (r.exit = 0 → ∃ l, t'.locate target = .ok l ∧ t'.node? l = some (.file (imageFrom text).encode) ∧
          ∀ l', l' ≠ l → SameFile t t' l' ∧ Kept target t t' l') := by
  rcases asm_cases t arguments with ⟨r, hrun, hexit⟩ | ⟨source, target, text, hready, r, hrun, hexit⟩
  · have hnonzero : r.exit ≠ 0 := by rw [hexit]; decide
    exact ⟨r, t, hrun, .inr hexit, fun _ l bytes => Iff.rfl, fun _ => ⟨hexit, rfl⟩, fun _ _ _ _ =>
      ⟨fun _ l => .inl rfl, fun hzero => absurd hzero hnonzero⟩⟩
  refine ⟨r, _, hrun, ?_⟩
  rcases writeImage_cases target (imageFrom text) t with ⟨hfailed, hgrown⟩ | ⟨hstored, t₁, hgrown, hstore⟩
  · rw [hfailed] at hexit
    have hnonzero : r.exit ≠ 0 := by rw [hexit]; decide
    refine ⟨.inr hexit, fun _ l => (hgrown.kept l).file_iff, fun hno => absurd ⟨_, _, _, hready⟩ hno, ?_⟩
    intro source' target' text' hready'
    obtain ⟨rfl, rfl, rfl⟩ := hready.unique hready'
    exact ⟨fun _ => hgrown.kept, fun hzero => absurd hzero hnonzero⟩
  · rw [hstored] at hexit
    have hnotone : r.exit ≠ 1 := by rw [hexit]; decide
    obtain ⟨l, hl, hfree, hput, hlocate⟩ := FileTree.locate_of_store hstore
    refine ⟨.inl hexit, fun hone => absurd hone hnotone, fun hno => absurd ⟨_, _, _, hready⟩ hno, ?_⟩
    intro source' target' text' hready'
    obtain ⟨rfl, rfl, rfl⟩ := hready.unique hready'
    refine ⟨fun hone => absurd hone hnotone, fun _ => ⟨l, hlocate, ?_, fun l' hne => ?_⟩⟩
    · rw [hput, FileTree.node?_put t₁ hl, if_pos rfl]
    · have hkept := (hgrown.kept l').put hl hfree hne (.file (imageFrom text).encode)
      rw [hput]
      exact ⟨hkept.file_iff, hkept⟩

-- the last target is empty, so the image goes beside the source
example :
    let t := FileTree.empty.add (ofString "loop.vna") (.file (ofString "loop: jump loop").toArray)
    let x := (asm (["", "-o", "x", "loop.vna", "--output", ""].map ofString) : FileM Result).run t
    x.1.exit = 0 ∧ x.2.openFile (ofString "loop.vbc") = some (.file (Image.encode ⟨0, #[0x08, 0, 0, 0, 0]⟩)) := by
  decide +kernel

-- a directory is made for an image that has no name
example :
    let t := FileTree.empty.add (ofString "loop.vna") (.file (ofString "loop: jump loop").toArray)
    let x := (asm (["loop.vna", "-o", "out/"].map ofString) : FileM Result).run t
    x.1.exit = 1 ∧ x.2.status (ofString "out") = .directory := by
  decide +kernel

end Command

end StackVM
