/-
  StackVM.Proofs.Heap.Reachability — what a collection finds.

  `Reachable h roots` are the live objects that valid handles lead to, from the roots and on through slots.
  The marking keeps a list of gray objects: marked, but not looked into. `Tricolour` is its invariant: what
  is marked is reachable, the roots are marked, and a marked object that is not gray has everything it
  refers to marked.

  - `Marking.visitAll_advances`: what visiting a list of values marks, and what it puts on the gray list.
  - `Tricolour.next`: looking into one object keeps the invariant.
  - `marked_iff_reachable`: when the list has run empty, exactly the reachable objects are marked.
-/

import StackVM.Heap.Collect
import StackVM.Proofs.Heap.Books

namespace StackVM

/-- The entry without its mark. -/
def Entry.unmark (e : Entry) : Entry := { e with marked := false }

theorem Entry.unmark_of_unmarked {e : Entry} (h : e.marked = false) : e.unmark = e := by
  cases e; simp_all [Entry.unmark]

@[simp] theorem Entry.outline_unmark (e : Entry) : e.unmark.outline = e.outline := rfl

namespace Heap

/-- The objects that valid handles lead to, by their indices. -/
inductive Reachable (h : Heap) (roots : List Value) : UInt32 → Prop
  | root {x : Handle} : .ref x ∈ roots → h.isValid x = true → Reachable h roots x.index
  | slot {i : UInt32} {e : Entry} {x : Handle} : Reachable h roots i → h.entries[i.toNat]? = some e →
      .ref x ∈ e.slots → h.isValid x = true → Reachable h roots x.index

theorem isValid_iff {h : Heap} {x : Handle} : h.isValid x = true ↔
    ∃ e, h.entries[x.index.toNat]? = some e ∧ e.live = true ∧ e.generation = x.generation := by
  simp [isValid, Option.any_eq_true, Entry.answers]

theorem liveAt_of_isValid {h : Heap} {x : Handle} (hx : h.isValid x = true) : h.liveAt x.index.toNat = true := by
  obtain ⟨e, he, hl, -⟩ := isValid_iff.mp hx
  rw [liveAt_of_entry he, hl]

theorem Reachable.live {h : Heap} {roots : List Value} {i : UInt32} (hr : h.Reachable roots i) :
    h.liveAt i.toNat = true := by
  cases hr with
  | root _ hx => exact liveAt_of_isValid hx
  | slot _ _ _ hx => exact liveAt_of_isValid hx

/-- More roots reach at least as much. -/
theorem Reachable.mono {h : Heap} {roots roots' : List Value} (hs : ∀ v ∈ roots, v ∈ roots') {i : UInt32}
    (hr : h.Reachable roots i) : h.Reachable roots' i := by
  induction hr with
  | root hv hx => exact .root (hs _ hv) hx
  | slot _ he hv hx ih => exact .slot ih he hv hx

end Heap

namespace Marking

/-! ## Visiting values -/

def markedAt (m : Marking) (i : UInt32) : Bool := m.entries[i.toNat]?.any (·.marked)

/-- The marking's table is the heap's but for the marks. -/
def Agrees (h : Heap) (m : Marking) : Prop := m.entries.map Entry.unmark = h.entries.map Entry.unmark

variable {h : Heap} {m m' m'' : Marking}

theorem Agrees.entry (ha : Agrees h m) (i : Nat) :
    (m.entries[i]?).map Entry.unmark = (h.entries[i]?).map Entry.unmark := by
  simpa using congrArg (·[i]?) ha

theorem Agrees.slots (ha : Agrees h m) (i : Nat) : (m.entries[i]?).map (·.slots) = (h.entries[i]?).map (·.slots) := by
  simpa [Option.map_map, Function.comp_def, Entry.unmark] using congrArg (Option.map (·.slots)) (ha.entry i)

theorem Agrees.answers (ha : Agrees h m) (x : Handle) :
    m.entries[x.index.toNat]?.any (·.answers x) = h.isValid x := by
  simpa [Option.any_map, Function.comp_def, Entry.unmark, Entry.answers, Heap.isValid] using
    congrArg (Option.any (·.answers x)) (ha.entry x.index.toNat)

theorem isNew_iff (ha : Agrees h m) {x : Handle} :
    m.isNew x = true ↔ h.isValid x = true ∧ m.markedAt x.index = false := by
  rw [← ha.answers, isNew, markedAt]
  cases m.entries[x.index.toNat]? <;> simp

theorem Agrees.mark (ha : Agrees h m) (i : UInt32) : Agrees h (m.mark i) := by
  rw [Agrees, ← ha]
  refine Array.ext_getElem? fun j => ?_
  simp only [Marking.mark, Array.getElem?_map, Array.getElem?_modify]
  split
  · cases m.entries[j]? <;> rfl
  · rfl

theorem markedAt_mark (hi : i.toNat < m.entries.size) (j : UInt32) :
    (m.mark i).markedAt j = if i = j then true else m.markedAt j := by
  simp only [markedAt, Marking.mark, Array.getElem?_modify, UInt32.toNat_inj]
  split
  next e => subst e; simp [hi]
  next => rfl

/-- What visiting values does: everything valid among them is marked, nothing else, and what is new on the
gray list is what is newly marked, each once. -/
structure Advances (h : Heap) (vs : List Value) (m m' : Marking) : Prop where
  agrees : Agrees h m'
  grows : ∀ i, m.markedAt i = true → m'.markedAt i = true
  marks : ∀ x, .ref x ∈ vs → h.isValid x = true → m'.markedAt x.index = true
  only : ∀ i, m'.markedAt i = true → m.markedAt i = true ∨ ∃ x, .ref x ∈ vs ∧ h.isValid x = true ∧ x.index = i
  gray : ∃ new : List UInt32, m'.gray = new ++ m.gray ∧ new.Nodup ∧
    ∀ i, i ∈ new ↔ m'.markedAt i = true ∧ m.markedAt i = false

theorem Advances.refl (ha : Agrees h m) : Advances h [] m m :=
  ⟨ha, fun _ hi => hi, fun _ hx => absurd hx List.not_mem_nil, fun _ hi => .inl hi, [], rfl, .nil, fun i => by simp⟩

theorem Advances.trans {vs ws : List Value} (h1 : Advances h vs m m') (h2 : Advances h ws m' m'') :
    Advances h (vs ++ ws) m m'' := by
  obtain ⟨new1, hg1, hn1, hm1⟩ := h1.gray
  obtain ⟨new2, hg2, hn2, hm2⟩ := h2.gray
  refine ⟨h2.agrees, fun i hi => h2.grows i (h1.grows i hi), fun x hx hv => ?_, fun i hi => ?_,
    new2 ++ new1, by rw [hg2, hg1, List.append_assoc], ?_, fun i => ?_⟩
  · rcases List.mem_append.mp hx with hx | hx
    · exact h2.grows _ (h1.marks x hx hv)
    · exact h2.marks x hx hv
  · rcases h2.only i hi with hi | ⟨x, hx, hv, rfl⟩
    · rcases h1.only i hi with hi | ⟨x, hx, hv, rfl⟩
      · exact .inl hi
      · exact .inr ⟨x, List.mem_append_left _ hx, hv, rfl⟩
    · exact .inr ⟨x, List.mem_append_right _ hx, hv, rfl⟩
  · refine List.nodup_append.mpr ⟨hn2, hn1, fun i hi j hj e => ?_⟩
    subst e
    have h3 := ((hm2 i).mp hi).2
    rw [((hm1 i).mp hj).1] at h3
    cases h3
  · rw [List.mem_append, hm1, hm2]
    have hg := h1.grows i
    have hg' := h2.grows i
    cases e : m.markedAt i <;> cases e' : m'.markedAt i <;> simp_all

theorem visit_advances (ha : Agrees h m) (v : Value) : Advances h [v] m (m.visit v) := by
  cases v with
  | raw n =>
    exact ⟨ha, fun _ hi => hi, fun x hx => by simp at hx, fun _ hi => .inl hi, [], rfl, .nil, fun i => by simp [visit]⟩
  | ref x =>
    simp only [visit]
    split
    next hnew =>
      obtain ⟨hv, hun⟩ := (isNew_iff ha).mp hnew
      have hi : x.index.toNat < m.entries.size := by
        have hl := Heap.liveAt_lt (Heap.liveAt_of_isValid hv)
        have := congrArg Array.size ha
        simp only [Array.size_map] at this
        omega
      have hat := markedAt_mark hi
      refine ⟨ha.mark _, fun i hm => ?_, fun y hy _ => ?_, fun i hm => ?_, [x.index], rfl, by simp, fun i => ?_⟩
      · rw [hat]; split <;> simp_all
      · simp only [List.mem_singleton, Value.ref.injEq] at hy
        rw [hat, hy, if_pos rfl]
      · rw [hat] at hm
        split at hm
        next e => exact .inr ⟨x, List.mem_singleton_self _, hv, e⟩
        next => exact .inl hm
      · rw [hat, List.mem_singleton]
        by_cases e : x.index = i
        · subst e; simp [hun]
        · simp [e, Ne.symm e]
    next hnew =>
      refine ⟨ha, fun _ hi => hi, fun y hy hv => ?_, fun _ hi => .inl hi, [], rfl, .nil, fun i => by simp⟩
      simp only [List.mem_singleton, Value.ref.injEq] at hy
      subst hy
      simpa [hv] using mt (isNew_iff ha).mpr hnew

theorem visitAll_advances (ha : Agrees h m) (vs : List Value) : Advances h vs m (m.visitAll vs) := by
  induction vs generalizing m with
  | nil => exact .refl ha
  | cons v vs ih =>
    have h1 := visit_advances ha v
    exact h1.trans (ih h1.agrees)

/-! ## The invariant -/

structure Tricolour (h : Heap) (roots : List Value) (m : Marking) : Prop where
  agrees : Agrees h m
  reached : ∀ i, m.markedAt i = true → h.Reachable roots i
  rootsMarked : ∀ x, .ref x ∈ roots → h.isValid x = true → m.markedAt x.index = true
  grayMarked : ∀ i ∈ m.gray, m.markedAt i = true
  /-- A marked object that has been looked into refers to marked objects only. -/
  blackClosed : ∀ i e x, m.markedAt i = true → i ∉ m.gray → h.entries[i.toNat]? = some e → .ref x ∈ e.slots →
    h.isValid x = true → m.markedAt x.index = true

/-- A collection starts by visiting the roots, on a table without marks. -/
theorem Tricolour.start {roots : List Value} (hu : ∀ (i : Nat) (e : Entry), h.entries[i]? = some e → e.marked = false) :
    Tricolour h roots (visitAll ⟨h.entries, []⟩ roots) := by
  have hadv := visitAll_advances (h := h) (m := ⟨h.entries, []⟩) rfl roots
  have hnone : ∀ i, markedAt ⟨h.entries, []⟩ i = false := by
    intro i
    simp only [markedAt]
    cases he : h.entries[i.toNat]? with
    | none => rfl
    | some e => simpa using hu _ e he
  obtain ⟨new, hg, -, hnew⟩ := hadv.gray
  rw [List.append_nil] at hg
  refine ⟨hadv.agrees, fun i hi => ?_, hadv.marks, fun i hi => ?_, fun i e x hi hgray => ?_⟩
  · rcases hadv.only i hi with hi | ⟨x, hx, hv, rfl⟩
    · rw [hnone] at hi; cases hi
    · exact .root hx hv
  · rw [hg, hnew] at hi
    exact hi.1
  · rw [hg, hnew] at hgray
    exact absurd ⟨hi, hnone i⟩ hgray

theorem Tricolour.next {roots : List Value} (ht : Tricolour h roots m) (hn : m.next? = some m') :
    Tricolour h roots m' := by
  unfold next? at hn
  split at hn
  · cases hn
  next i rest hgray =>
    simp only [Option.some.injEq] at hn
    -- the object that is looked into, as it lies in the heap
    obtain ⟨e, he⟩ : ∃ e, h.entries[i.toNat]? = some e := by
      have hr := ht.reached i (ht.grayMarked i (by rw [hgray]; exact List.mem_cons_self))
      obtain ⟨e, he, -⟩ := Heap.entry_of_liveAt hr.live
      exact ⟨e, he⟩
    rw [ht.agrees.slots, he, Option.map_some, Option.getD_some] at hn
    have hadv := visitAll_advances (m := { m with gray := rest }) ht.agrees e.slots.toList
    rw [hn] at hadv
    obtain ⟨new, hg, -, hnew⟩ := hadv.gray
    refine ⟨hadv.agrees, fun j hj => ?_, fun x hx hv => hadv.grows _ (ht.rootsMarked x hx hv), fun j hj => ?_,
      fun j e' x hj hjg he' hx hv => ?_⟩
    · rcases hadv.only j hj with hj | ⟨x, hx, hv, rfl⟩
      · exact ht.reached j hj
      · have hr := ht.reached i (ht.grayMarked i (by rw [hgray]; exact List.mem_cons_self))
        exact .slot hr he (Array.mem_toList_iff.mp hx) hv
    · rw [hg] at hj
      rcases List.mem_append.mp hj with hj | hj
      · exact ((hnew j).mp hj).1
      · exact hadv.grows j (ht.grayMarked j (by rw [hgray]; exact List.mem_cons_of_mem _ hj))
    · rw [hg, List.mem_append, not_or, hnew] at hjg
      -- what is marked and not gray was marked before, so it is the object looked into or black already
      have hold : m.markedAt j = true := by
        cases hm : m.markedAt j with
        | true => rfl
        | false => exact absurd ⟨hj, hm⟩ hjg.1
      by_cases e'' : j = i
      · subst e''
        rw [he, Option.some.injEq] at he'
        subst he'
        exact hadv.marks x (Array.mem_toList_iff.mpr hx) hv
      · have hng : j ∉ m.gray := by
          rw [hgray, List.mem_cons, not_or]
          exact ⟨e'', hjg.2⟩
        exact hadv.grows _ (ht.blackClosed j e' x hold hng he' hx hv)

/-- The marking runs until nothing is gray. -/
theorem Tricolour.finish {roots : List Value} (ht : Tricolour h roots m) :
    ∃ m', m'.gray = [] ∧ m.finish = m'.entries ∧ Tricolour h roots m' := by
  induction m using Marking.finish.induct with
  | case1 m hn =>
    refine ⟨m, ?_, by rw [Marking.finish, hn], ht⟩
    unfold next? at hn
    split at hn
    · assumption
    · cases hn
  | case2 m m' hn ih =>
    obtain ⟨m'', hg, hf, ht'⟩ := ih (ht.next hn)
    exact ⟨m'', hg, by rw [Marking.finish, hn]; exact hf, ht'⟩

/-- Without gray objects, the marked ones are closed under following valid handles. -/
theorem Tricolour.marked_iff {roots : List Value} (ht : Tricolour h roots m) (hg : m.gray = []) (i : UInt32) :
    m.markedAt i = true ↔ h.Reachable roots i := by
  refine ⟨ht.reached i, fun hr => ?_⟩
  induction hr with
  | root hx hv => exact ht.rootsMarked _ hx hv
  | slot _ he hx hv ih => exact ht.blackClosed _ _ _ ih (by rw [hg]; exact List.not_mem_nil) he hx hv

end Marking

namespace Heap

/-! ## The marked heap -/

variable {h : Heap}

@[simp] theorem classes_mark (roots : List Value) : (h.mark roots).classes = h.classes := rfl

/-- Marking changes marks only. -/
theorem unmark_mark (hu : ∀ (i : Nat) (e : Entry), h.entries[i]? = some e → e.marked = false) (roots : List Value) :
    (h.mark roots).entries.map Entry.unmark = h.entries.map Entry.unmark := by
  have hstart : Marking.Tricolour h roots _ := .start hu
  obtain ⟨m, -, hf, ht⟩ := hstart.finish
  have he : (h.mark roots).entries = m.entries := hf
  rw [he]
  exact ht.agrees

/-- After a marking exactly the reachable objects are marked. -/
theorem marked_iff_reachable (hu : ∀ (i : Nat) (e : Entry), h.entries[i]? = some e → e.marked = false)
    {roots : List Value} {i : UInt32} {e : Entry} (he : (h.mark roots).entries[i.toNat]? = some e) :
    e.marked = true ↔ h.Reachable roots i := by
  have hstart : Marking.Tricolour h roots _ := .start hu
  obtain ⟨m, hg, hf, ht⟩ := hstart.finish
  have he' : m.entries[i.toNat]? = some e := by rw [← hf]; exact he
  rw [← ht.marked_iff hg i, Marking.markedAt, he', Option.any_some]

end Heap

end StackVM
