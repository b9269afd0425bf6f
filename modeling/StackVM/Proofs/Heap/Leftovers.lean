/-
  StackVM.Proofs.Heap.Leftovers — what objects leave behind when they go.

  An entry that is not live still has the values and the count of its last object in it. `bare` clears them away, and
  two heaps are twins when they are the same once that is done. Nothing that is done with a heap looks at leftovers:
  an allocation clears the slots, a handle is checked before its slots are looked at, a collection follows valid
  handles only.

  - `bare_eq_iff`: twins, told entry by entry.
  - `Twin.call`: twins answer a call alike and are twins afterwards.
  - `Twin.collect`: a collection frees as much in one as in the other, and leaves twins.
-/

import StackVM.Proofs.Heap.Effects

namespace StackVM

/-! ## Entries -/

namespace Entry

/-- The entry without what is left of an object that is gone. -/
def bare (e : Entry) : Entry :=
  if e.live then e else { e with slots := Array.replicate e.slots.size (.raw 0), refCount := 0, marked := false }

/-- Two entries that differ in leftovers at most. -/
structure Twin (e e' : Entry) : Prop where
  live : e'.live = e.live
  generation : e'.generation = e.generation
  sizeClass : e'.sizeClass = e.sizeClass
  size : e'.slots.size = e.slots.size
  same : e.live = true → e' = e

variable {e e' : Entry}

theorem Twin.refl (e : Entry) : e.Twin e := ⟨rfl, rfl, rfl, rfl, fun _ => rfl⟩

theorem bare_eq_iff : e'.bare = e.bare ↔ e.Twin e' := by
  have hlive : ∀ e : Entry, e.bare.live = e.live := by
    intro e
    unfold bare
    split <;> rfl
  constructor
  · intro hbare
    have hl : e'.live = e.live := by rw [← hlive e', ← hlive e, hbare]
    cases h : e.live with
    | true =>
      rw [h] at hl
      rw [bare, if_pos hl, bare, if_pos h] at hbare
      rw [hbare]
      exact .refl e
    | false =>
      rw [h] at hl
      simp only [bare, hl, h, Bool.false_eq_true, if_false, Entry.mk.injEq] at hbare
      have hsize : e'.slots.size = e.slots.size := by simpa using congrArg Array.size hbare.1
      exact ⟨hl.trans h.symm, hbare.2.1, hbare.2.2.2.1, hsize, fun hl' => absurd (h.symm.trans hl') Bool.false_ne_true⟩
  · intro ht
    cases h : e.live with
    | true => rw [ht.same h]
    | false =>
      have hl : e'.live = false := ht.live.trans h
      simp only [bare, hl, h, Bool.false_eq_true, if_false, ht.generation, ht.sizeClass, ht.size]

/-- A change that touches neither liveness, generation and class nor the number of slots. -/
theorem Twin.update (ht : e.Twin e') {f : Entry → Entry} (hf : ∀ e, (f e).live = e.live ∧
    (f e).generation = e.generation ∧ (f e).sizeClass = e.sizeClass ∧ (f e).slots.size = e.slots.size) :
    (f e).Twin (f e') := by
  obtain ⟨hl, hg, hc, hs⟩ := hf e
  obtain ⟨hl', hg', hc', hs'⟩ := hf e'
  refine ⟨by rw [hl, hl', ht.live], by rw [hg, hg', ht.generation], by rw [hc, hc', ht.sizeClass],
    by rw [hs, hs', ht.size], fun h => ?_⟩
  rw [hl] at h
  rw [ht.same h]

theorem Twin.kill (ht : e.Twin e') : e.kill.Twin e'.kill :=
  ⟨rfl, congrArg (· + 1) ht.generation, ht.sizeClass, ht.size, fun h => by cases h⟩

/-- Nothing is left over in a new object. -/
theorem Twin.revive (ht : e.Twin e') : e'.revive = e.revive := by
  simp only [Entry.revive, ht.size, ht.generation, ht.sizeClass]

/-- Marks on leftovers count for nothing. -/
theorem twin_unmark (he : e.live = true → e.marked = false) : e.Twin e.unmark :=
  ⟨rfl, rfl, rfl, rfl, fun hl => unmark_of_unmarked (he hl)⟩

end Entry

/-! ## Tables -/

/-- Two tables that differ in leftovers at most. -/
def TwinTables (es es' : Array Entry) : Prop := ∀ i : Nat, (es[i]? = none ∧ es'[i]? = none) ∨
  ∃ e e', es[i]? = some e ∧ es'[i]? = some e' ∧ e.Twin e'

namespace TwinTables

variable {es es' : Array Entry}

theorem bare_eq_iff : es'.map Entry.bare = es.map Entry.bare ↔ TwinTables es es' := by
  constructor
  · intro hbare i
    have hat : (es'[i]?).map Entry.bare = (es[i]?).map Entry.bare := by
      simpa using congrArg (·[i]?) hbare
    cases he : es[i]? with
    | none =>
      rw [he] at hat
      exact .inl ⟨rfl, Option.map_eq_none_iff.mp hat⟩
    | some e =>
      rw [he] at hat
      obtain ⟨e', he', hb⟩ := Option.map_eq_some_iff.mp hat
      exact .inr ⟨e, e', rfl, he', Entry.bare_eq_iff.mp hb⟩
  · intro ht
    refine Array.ext_getElem? fun i => ?_
    rw [Array.getElem?_map, Array.getElem?_map]
    rcases ht i with ⟨he, he'⟩ | ⟨e, e', he, he', ht⟩
    · rw [he, he']
    · rw [he, he', Option.map_some, Option.map_some, Entry.bare_eq_iff.mpr ht]

theorem size (ht : TwinTables es es') : es'.size = es.size := by
  simpa using congrArg Array.size (bare_eq_iff.mpr ht)

theorem modify (ht : TwinTables es es') (i : Nat) {f f' : Entry → Entry}
    (hf : ∀ e e', e.Twin e' → (f e).Twin (f' e')) : TwinTables (es.modify i f) (es'.modify i f') := by
  intro j
  rw [Array.getElem?_modify, Array.getElem?_modify]
  split
  · rcases ht j with ⟨he, he'⟩ | ⟨e, e', he, he', ht⟩
    · left; simp [he, he']
    · right; exact ⟨f e, f' e', by simp [he], by simp [he'], hf e e' ht⟩
  · exact ht j

end TwinTables

/-! ## Heaps -/

namespace Heap

/-- The heap without what is left of objects that are gone. -/
def bare (h : Heap) : Heap := { h with entries := h.entries.map Entry.bare }

structure Twin (h h' : Heap) : Prop where
  classes : h'.classes = h.classes
  capacity : h'.capacity = h.capacity
  held : h'.held = h.held
  table : TwinTables h.entries h'.entries

variable {h h' : Heap}

theorem bare_eq_iff : h'.bare = h.bare ↔ h.Twin h' := by
  simp only [bare, Heap.mk.injEq, TwinTables.bare_eq_iff]
  constructor
  · rintro ⟨hcls, htable, hcap, hheld⟩
    exact ⟨hcls, hcap, hheld, htable⟩
  · rintro ⟨hcls, hcap, hheld, htable⟩
    exact ⟨hcls, htable, hcap, hheld⟩

namespace Twin

/-! ## What twins have in common -/

theorem isHeld (ht : h.Twin h') (i : UInt32) : h'.isHeld i = h.isHeld i := by
  simp only [Heap.isHeld, ht.held]

theorem isValid (ht : h.Twin h') (x : Handle) : h'.isValid x = h.isValid x := by
  unfold Heap.isValid
  rcases ht.table x.index.toNat with ⟨he, he'⟩ | ⟨e, e', he, he', ht⟩
  · rw [he, he']
  · rw [he, he', Option.any_some, Option.any_some, Entry.answers, Entry.answers, ht.live, ht.generation]

theorem liveAt (ht : h.Twin h') (i : Nat) : h'.liveAt i = h.liveAt i := by
  unfold Heap.liveAt
  rcases ht.table i with ⟨he, he'⟩ | ⟨e, e', he, he', ht⟩
  · rw [he, he']
  · rw [he, he', Option.any_some, Option.any_some, ht.live]

theorem entry_of_live (ht : h.Twin h') {i : Nat} (hl : h.liveAt i = true) : h'.entries[i]? = h.entries[i]? := by
  obtain ⟨e, he, hl⟩ := entry_of_liveAt hl
  rcases ht.table i with ⟨hnone, -⟩ | ⟨e₁, e', he₁, he', ht⟩
  · rw [he] at hnone; cases hnone
  · rw [he] at he₁
    cases he₁
    rw [he, he', ht.same hl]

/-- Twins are the same at every handle. -/
theorem sameAt (ht : h.Twin h') (x : Handle) : SameAt x h h' :=
  ⟨ht.table.size, ht.isValid x, fun hx => ht.entry_of_live (liveAt_of_isValid hx)⟩

theorem sizeAt (ht : h.Twin h') (i : UInt32) : h'.sizeAt i = h.sizeAt i := by
  unfold Heap.sizeAt Heap.slotsAt
  rcases ht.table i.toNat with ⟨he, he'⟩ | ⟨e, e', he, he', ht⟩
  · rw [he, he']
  · simp [he, he', ht.size]

theorem classAt (ht : h.Twin h') (i : UInt32) : h'.classAt i = h.classAt i := by
  unfold Heap.classAt
  rcases ht.table i.toNat with ⟨he, he'⟩ | ⟨e, e', he, he', ht⟩
  · rw [he, he']
  · simp [he, he', ht.sizeClass]

/-! ## Updates -/

theorem updateEntry (ht : h.Twin h') (i : UInt32) {f f' : Entry → Entry}
    (hf : ∀ e e', e.Twin e' → (f e).Twin (f' e')) : (h.updateEntry i f).Twin (h'.updateEntry i f') :=
  ⟨ht.classes, ht.capacity, ht.held, ht.table.modify i.toNat hf⟩

/-- An update of slots, count or mark. -/
theorem adjustEntry (ht : h.Twin h') (i : UInt32) {f : Entry → Entry} (hf : ∀ e, (f e).live = e.live ∧
    (f e).generation = e.generation ∧ (f e).sizeClass = e.sizeClass ∧ (f e).slots.size = e.slots.size) :
    (h.updateEntry i f).Twin (h'.updateEntry i f) :=
  ht.updateEntry i fun _ _ he => he.update hf

theorem updateClass (ht : h.Twin h') (n : Nat) (f : SizeClass → SizeClass) :
    (h.updateClass n f).Twin (h'.updateClass n f) :=
  ⟨by simp only [Heap.updateClass, ht.classes], ht.capacity, ht.held, ht.table⟩

theorem holding (ht : h.Twin h') (l : List UInt32) : Twin { h with held := l } { h' with held := l } :=
  ⟨ht.classes, ht.capacity, rfl, ht.table⟩

theorem setSlot (ht : h.Twin h') (i : UInt32) (slot : Nat) (v : Value) :
    (h.setSlot i slot v).Twin (h'.setSlot i slot v) :=
  ht.adjustEntry i fun e => ⟨rfl, rfl, rfl, by simp⟩

theorem retire (ht : h.Twin h') (i : UInt32) : (h.retire i).Twin (h'.retire i) := by
  unfold Heap.retire
  rw [ht.classAt]
  exact (ht.updateEntry i fun _ _ he => he.kill).updateClass _ _

theorem handOut (ht : h.Twin h') (n : Nat) (i : UInt32) :
    (h'.handOut n i).1 = (h.handOut n i).1 ∧ (h.handOut n i).2.Twin (h'.handOut n i).2 := by
  refine ⟨?_, (ht.updateClass n _).updateEntry i fun _ _ he => ?_⟩
  · rw [generationAt_handOut, generationAt_handOut]
    unfold generationAt
    rcases ht.table i.toNat with ⟨he, he'⟩ | ⟨e, e', he, he', ht⟩
    · rw [he, he']
    · simp [he, he', ht.generation]
  · rw [he.revive]
    exact .refl _

/-! ## Calls -/

theorem allocate (ht : h.Twin h') (n : Nat) : outcome (Heap.allocate n) h' = outcome (Heap.allocate n) h ∧
    (after (Heap.allocate n) h).Twin (after (Heap.allocate n) h') := by
  unfold outcome after Heap.allocate
  rw [ht.classes, ht.capacity]
  cases h.classes[n]? with
  | none => exact ⟨rfl, ht⟩
  | some k =>
    cases hf : k.free with
    | nil => simpa only [hf] using ⟨trivial, ht⟩
    | cons i rest =>
      obtain ⟨hx, hh⟩ := ht.handOut n i
      simp only [hf, hx]
      exact ⟨trivial, hh⟩

/-- An operation that checks a handle first leaves twins if what follows does. -/
theorem after_check {α : Type} (ht : h.Twin h') {x : Handle} {k : Unit → HeapM α}
    (hk : h.isValid x = true → (after (k ()) h).Twin (after (k ()) h')) :
    (after (check x >>= k) h).Twin (after (check x >>= k) h') := by
  cases hx : h.isValid x with
  | true =>
    rw [(after_given_of_valid hx k).1, (after_given_of_valid ((ht.isValid x).trans hx) k).1]
    exact hk hx
  | false =>
    rw [(after_given_of_not_valid hx k).1, (after_given_of_not_valid ((ht.isValid x).trans hx) k).1]
    exact ht

theorem writeAt (ht : h.Twin h') (i : UInt32) (slot : Nat) (v : Value) :
    outcome (Heap.writeAt i slot v) h' = outcome (Heap.writeAt i slot v) h ∧
      (after (Heap.writeAt i slot v) h).Twin (after (Heap.writeAt i slot v) h') := by
  refine ⟨by rw [outcome_writeAt, outcome_writeAt, ht.sizeAt], ?_⟩
  unfold after Heap.writeAt
  rw [ht.sizeAt]
  by_cases hslot : slot < h.sizeAt i
  · simp only [hslot, if_true]
    exact ht.setSlot i slot v
  · simp only [hslot, if_false]
    exact ht

/-- Twins answer a call alike and are twins afterwards. -/
theorem call (ht : h.Twin h') (a : Call) : a.answer h' = a.answer h ∧ (a.after h).Twin (a.after h') := by
  cases a with
  | allocate n =>
    obtain ⟨hans, hafter⟩ := ht.allocate n
    exact ⟨congrArg (Except.map _) hans, hafter⟩
  | read x slot =>
    refine ⟨Call.answer_congr rfl (ht.sameAt x), ht.after_check fun _ => ?_⟩
    rw [after_readAt, after_readAt]
    exact ht
  | write x slot v =>
    exact ⟨Call.answer_congr rfl (ht.sameAt x), ht.after_check fun _ => (ht.writeAt x.index slot v).2⟩
  | sizeOf x | refCount x => exact ⟨Call.answer_congr rfl (ht.sameAt x), ht.after_check fun _ => ht⟩
  | retain x =>
    refine ⟨Call.answer_congr rfl (ht.sameAt x), ht.after_check fun _ => ?_⟩
    exact ht.adjustEntry x.index fun _ => ⟨rfl, rfl, rfl, rfl⟩
  | release x =>
    refine ⟨Call.answer_congr rfl (ht.sameAt x), ht.after_check fun hx => ?_⟩
    show (h.dropReference x.index).2.Twin (h'.dropReference x.index).2
    unfold dropReference
    rw [(ht.sameAt x).refCountAt hx]
    by_cases hpos : 0 < h.refCountAt x.index - 1
    · rw [if_pos hpos, if_pos hpos]
      exact ht.adjustEntry x.index fun _ => ⟨rfl, rfl, rfl, rfl⟩
    · rw [if_neg hpos, if_neg hpos]
      exact ht.retire x.index

/-! ## Guards -/

theorem map {α β : Type} (f : α → β) {act : HeapM α}
    (hact : outcome act h' = outcome act h ∧ (after act h).Twin (after act h')) :
    outcome (f <$> act) h' = outcome (f <$> act) h ∧ (after (f <$> act) h).Twin (after (f <$> act) h') := by
  have hmap : ∀ h, outcome (f <$> act) h = (outcome act h).map f ∧ after (f <$> act) h = after act h := by
    intro h
    have he : (f <$> act) h = EStateM.map f act h := rfl
    unfold outcome after
    rw [he, EStateM.map]
    cases act h <;> exact ⟨rfl, rfl⟩
  rw [(hmap h).1, (hmap h').1, (hmap h).2, (hmap h').2, hact.1]
  exact ⟨rfl, hact.2⟩

theorem lock (ht : h.Twin h') (x : Handle) : outcome (Heap.lock x) h' = outcome (Heap.lock x) h ∧
    (after (Heap.lock x) h).Twin (after (Heap.lock x) h') := by
  refine ⟨(ht.sameAt x).outcome_check fun _ => rfl, ht.after_check fun _ => ?_⟩
  show Heap.Twin { h with held := x.index :: h.held } { h' with held := x.index :: h'.held }
  rw [ht.held]
  exact ht.holding _

theorem tryLock (ht : h.Twin h') (x : Handle) : outcome (Heap.tryLock x) h' = outcome (Heap.tryLock x) h ∧
    (after (Heap.tryLock x) h).Twin (after (Heap.tryLock x) h') := by
  have hlock := map some (ht.lock x)
  unfold outcome after at hlock ⊢
  unfold Heap.tryLock
  rw [ht.table.size, ht.isHeld]
  by_cases hsize : h.entries.size ≤ x.index.toNat
  · simp only [hsize, if_true]
    exact ⟨trivial, ht⟩
  · by_cases hheld : h.isHeld x.index = true
    · simp only [hsize, hheld, if_true, if_false]
      exact ⟨trivial, ht⟩
    · simp only [hsize, hheld, if_false]
      exact hlock

theorem unlock (ht : h.Twin h') (g : Guard) : (after (Heap.unlock g) h).Twin (after (Heap.unlock g) h') := by
  show Heap.Twin { h with held := h.held.erase g.handle.index } { h' with held := h'.held.erase g.handle.index }
  rw [ht.held]
  exact ht.holding _

/-- A guard on a live object reads the same through either. -/
theorem readAt (ht : h.Twin h') {x : Handle} (hx : h.isValid x = true) (slot : Nat) :
    outcome (Heap.readAt x.index slot) h' = outcome (Heap.readAt x.index slot) h := by
  rw [outcome_readAt, outcome_readAt, (ht.sameAt x).slotsAt hx, ht.sizeAt]

end Twin

end Heap

/-! ## Markings -/

namespace Marking

/-- Two collections under way that differ in leftovers at most, and look into live objects only. -/
structure Twin (m m' : Marking) : Prop where
  table : TwinTables m.entries m'.entries
  gray : m'.gray = m.gray
  live : ∀ i ∈ m.gray, (m.entries[i.toNat]?).any (·.live) = true

variable {m m' : Marking}

theorem Twin.isNew (ht : m.Twin m') (x : Handle) : m'.isNew x = m.isNew x := by
  unfold Marking.isNew
  rcases ht.table x.index.toNat with ⟨he, he'⟩ | ⟨e, e', he, he', ht⟩
  · rw [he, he']
  · rw [he, he', Option.any_some, Option.any_some]
    cases hl : e.live with
    | true => rw [ht.same hl]
    | false => simp [Entry.answers, hl, ht.live]

theorem Twin.mark (ht : m.Twin m') {i : UInt32} (hl : (m.entries[i.toNat]?).any (·.live) = true) :
    (m.mark i).Twin (m'.mark i) := by
  have hmark : ∀ j : Nat, ((m.mark i).entries[j]?).any (·.live) = (m.entries[j]?).any (·.live) := by
    intro j
    simp only [Marking.mark, Array.getElem?_modify]
    split
    · cases m.entries[j]? <;> rfl
    · rfl
  refine ⟨ht.table.modify _ fun _ _ he => ?_, congrArg (i :: ·) ht.gray, fun j hj => ?_⟩
  · exact ⟨he.live, he.generation, he.sizeClass, he.size, fun hl => by rw [he.same hl]⟩
  · rw [hmark]
    rcases List.mem_cons.mp hj with rfl | hj
    · exact hl
    · exact ht.live j hj

theorem Twin.visit (ht : m.Twin m') (v : Value) : (m.visit v).Twin (m'.visit v) := by
  cases v with
  | raw bits => exact ht
  | ref x =>
    simp only [Marking.visit, ht.isNew]
    split
    next hnew =>
      refine ht.mark ?_
      simp only [Marking.isNew, Option.any_eq_true] at hnew
      obtain ⟨e, he, hnew⟩ := hnew
      simp only [Entry.answers, Bool.and_eq_true] at hnew
      rw [he, Option.any_some]
      exact hnew.1.1
    next => exact ht

theorem Twin.visitAll (ht : m.Twin m') (vs : List Value) : (m.visitAll vs).Twin (m'.visitAll vs) := by
  induction vs generalizing m m' with
  | nil => exact ht
  | cons v vs ih => exact ih (ht.visit v)

theorem Twin.next (ht : m.Twin m') : (m.next? = none ∧ m'.next? = none) ∨
    ∃ n n', m.next? = some n ∧ m'.next? = some n' ∧ n.Twin n' := by
  unfold next?
  rw [ht.gray]
  cases hg : m.gray with
  | nil => exact .inl ⟨rfl, rfl⟩
  | cons i rest =>
    right
    have hlive := ht.live
    rw [hg] at hlive
    have hrest : Twin { m with gray := rest } { m' with gray := rest } :=
      ⟨ht.table, rfl, fun j hj => hlive j (List.mem_cons_of_mem i hj)⟩
    -- what is looked into is live, so it is the same on both sides
    have hslots : (m'.entries[i.toNat]?).map (·.slots) = (m.entries[i.toNat]?).map (·.slots) := by
      rcases ht.table i.toNat with ⟨he, he'⟩ | ⟨e, e', he, he', ht⟩
      · rw [he, he']
      · have hl := hlive i List.mem_cons_self
        rw [he, Option.any_some] at hl
        rw [he, he', ht.same hl]
    exact ⟨_, _, rfl, rfl, by rw [hslots]; exact hrest.visitAll _⟩

theorem Twin.finish (ht : m.Twin m') : TwinTables m.finish m'.finish := by
  induction m using Marking.finish.induct generalizing m' with
  | case1 m hn =>
    rcases ht.next with ⟨-, hn'⟩ | ⟨n, n', hsome, -⟩
    · rw [Marking.finish, hn, Marking.finish, hn']
      exact ht.table
    · rw [hn] at hsome; cases hsome
  | case2 m n hn ih =>
    rcases ht.next with ⟨hnone, -⟩ | ⟨n₁, n', hn₁, hn', htn⟩
    · rw [hn] at hnone; cases hnone
    · rw [hn] at hn₁
      cases hn₁
      rw [Marking.finish, hn, Marking.finish, hn']
      exact ih htn

end Marking

/-! ## Sweeps -/

namespace Heap

variable {h h' h'' : Heap}

theorem Twin.refl (h : Heap) : h.Twin h := bare_eq_iff.mp rfl

theorem Twin.symm (ht : h.Twin h') : h'.Twin h := bare_eq_iff.mp (bare_eq_iff.mpr ht).symm

theorem Twin.trans (h1 : h.Twin h') (h2 : h'.Twin h'') : h.Twin h'' :=
  bare_eq_iff.mp ((bare_eq_iff.mpr h2).trans (bare_eq_iff.mpr h1))

theorem Twin.mark (ht : h.Twin h') (roots : List Value) : (h.mark roots).Twin (h'.mark roots) := by
  have hstart : Marking.Twin ⟨h.entries, []⟩ ⟨h'.entries, []⟩ := ⟨ht.table, rfl, fun i hi => by cases hi⟩
  exact ⟨ht.classes, ht.capacity, ht.held, (hstart.visitAll roots).finish⟩

/-- What the sweep does with one entry. -/
theorem sweepEntry_cases (n freed : Nat) (h : Heap) :
    (∃ e, h.entries[n]? = some e ∧ e.live = true ∧
      sweepEntry n freed h = (freed + 1, h.retire (UInt32.ofNat n))) ∨
    sweepEntry n freed h = (freed, h.updateEntry (UInt32.ofNat n) Entry.unmark) ∨
    ((∀ e, h.entries[n]? = some e → e.live = false) ∧ sweepEntry n freed h = (freed, h)) := by
  cases he : h.entries[n]? with
  | none =>
    right; right
    refine ⟨fun _ hnone => (nomatch hnone), ?_⟩
    rw [sweepEntry, he]
    rfl
  | some e =>
    cases hfate : fateOf e with
    | retire =>
      left
      refine ⟨e, rfl, ?_, by rw [sweepEntry, he, Option.map_some, hfate]⟩
      by_cases hd : (e.live && !e.marked) = true
      · exact (Bool.and_eq_true_iff.mp hd).1
      · rw [fateOf, if_neg hd] at hfate
        split at hfate <;> cases hfate
    | unmark =>
      right; left
      rw [sweepEntry, he, Option.map_some, hfate]
      rfl
    | pass =>
      right; right
      refine ⟨fun e' he' => ?_, by rw [sweepEntry, he, Option.map_some, hfate]⟩
      cases he'
      -- a live entry is retired or has its mark taken away
      cases hl : e.live with
      | false => rfl
      | true => cases hm : e.marked <;> simp [fateOf, hl, hm] at hfate

/-- No live object below a position has a mark. A table may be longer than there are indices; what comes after the
last index falls on entries that have been swept before. -/
def CleanBelow (n : Nat) (h : Heap) : Prop :=
  ∀ k < n, k < UInt32.size → ∀ e, h.entries[k]? = some e → e.live = true → e.marked = false

theorem CleanBelow.sweepEntry {n : Nat} (hclean : CleanBelow n h) (freed : Nat) :
    CleanBelow (n + 1) (sweepEntry n freed h).2 := by
  intro k hk hword e he hl
  by_cases hkn : (UInt32.ofNat n).toNat = k
  · rcases sweepEntry_cases n freed h with ⟨-, -, -, hs⟩ | hs | ⟨hdead, hs⟩
    · rw [hs] at he
      simp only [entries_retire, hkn, if_true, Option.map_eq_some_iff] at he
      obtain ⟨e₀, -, rfl⟩ := he
      cases hl
    · rw [hs] at he
      simp only [entries_updateEntry, hkn, if_true, Option.map_eq_some_iff] at he
      obtain ⟨e₀, -, rfl⟩ := he
      rfl
    · rw [hs] at he
      by_cases hkn' : k = n
      · rw [hdead e (hkn' ▸ he)] at hl
        cases hl
      · exact hclean k (by omega) hword e he hl
  · -- another entry is swept, and this one came before
    have hlt : k < n := by
      have : k ≠ n := fun h => hkn (h ▸ UInt32.toNat_ofNat_of_lt' hword)
      omega
    rcases sweepEntry_cases n freed h with ⟨-, -, -, hs⟩ | hs | ⟨-, hs⟩
    · rw [hs, entries_retire, if_neg hkn] at he
      exact hclean k hlt hword e he hl
    · rw [hs, entries_updateEntry, if_neg hkn] at he
      exact hclean k hlt hword e he hl
    · rw [hs] at he
      exact hclean k hlt hword e he hl

theorem cleanBelow_sweepUpTo (n : Nat) (h : Heap) : CleanBelow n (sweepUpTo n h).2 := by
  induction n with
  | zero => exact fun k hk => absurd hk (Nat.not_lt_zero k)
  | succ n ih =>
    rw [sweepUpTo_succ]
    exact ih.sweepEntry _

theorem twin_updateEntry_unmark {i : UInt32}
    (hi : ∀ e, h.entries[i.toNat]? = some e → e.live = true → e.marked = false) :
    h.Twin (h.updateEntry i Entry.unmark) := by
  refine ⟨rfl, rfl, rfl, fun j => ?_⟩
  rw [entries_updateEntry]
  cases he : h.entries[j]? with
  | none => left; simp
  | some e =>
    right
    by_cases hj : i.toNat = j
    · exact ⟨e, e.unmark, rfl, by rw [if_pos hj, Option.map_some], Entry.twin_unmark (hi e (hj ▸ he))⟩
    · exact ⟨e, e, rfl, by rw [if_neg hj], .refl e⟩

/-- The sweep passes over what is not live, but for a mark that may be left over. -/
theorem twin_sweepEntry_of_dead {n : Nat} (hclean : CleanBelow n h) (hdead : h.liveAt n = false) (freed : Nat) :
    (sweepEntry n freed h).1 = freed ∧ h.Twin (sweepEntry n freed h).2 := by
  rcases sweepEntry_cases n freed h with ⟨e, he, hl, -⟩ | hs | ⟨-, hs⟩
  · rw [liveAt_of_entry he, hl] at hdead
    cases hdead
  · rw [hs]
    refine ⟨rfl, twin_updateEntry_unmark fun e he hl => ?_⟩
    by_cases hword : n < UInt32.size
    · rw [UInt32.toNat_ofNat_of_lt' hword] at he
      rw [liveAt_of_entry he, hl] at hdead
      cases hdead
    · have hi := (UInt32.ofNat n).toNat_lt_size
      exact hclean _ (by omega) hi e he hl
  · rw [hs]
    exact ⟨rfl, .refl h⟩

namespace Twin

theorem sweepEntry (ht : h.Twin h') {n : Nat} (hclean : CleanBelow n h) (hclean' : CleanBelow n h') (freed : Nat) :
    (sweepEntry n freed h').1 = (sweepEntry n freed h).1 ∧
      (Heap.sweepEntry n freed h).2.Twin (Heap.sweepEntry n freed h').2 := by
  cases hl : h.liveAt n with
  | true =>
    unfold Heap.sweepEntry
    rw [ht.entry_of_live hl]
    split
    · exact ⟨rfl, ht.retire _⟩
    · exact ⟨rfl, ht.adjustEntry _ fun _ => ⟨rfl, rfl, rfl, rfl⟩⟩
    · exact ⟨rfl, ht⟩
  | false =>
    obtain ⟨h1, h2⟩ := twin_sweepEntry_of_dead hclean hl freed
    obtain ⟨h1', h2'⟩ := twin_sweepEntry_of_dead hclean' ((ht.liveAt n).trans hl) freed
    exact ⟨h1'.trans h1.symm, (h2.symm.trans ht).trans h2'⟩

theorem sweepUpTo (ht : h.Twin h') (n : Nat) : (sweepUpTo n h').1 = (sweepUpTo n h).1 ∧
    (Heap.sweepUpTo n h).2.Twin (Heap.sweepUpTo n h').2 := by
  induction n with
  | zero => exact ⟨rfl, ht⟩
  | succ n ih =>
    rw [sweepUpTo_succ, sweepUpTo_succ, ih.1]
    exact ih.2.sweepEntry (cleanBelow_sweepUpTo n h) (cleanBelow_sweepUpTo n h') _

/-- A collection frees as much in one twin as in the other, and leaves twins. -/
theorem collect (ht : h.Twin h') (roots : List Value) : (h'.collect roots).1 = (h.collect roots).1 ∧
    (h.collect roots).2.Twin (h'.collect roots).2 := by
  unfold Heap.collect
  rw [ht.held]
  split
  · have hm := ht.mark roots
    unfold sweep
    rw [hm.table.size]
    exact hm.sweepUpTo _
  · exact ⟨rfl, ht⟩

end Twin

end Heap

end StackVM
