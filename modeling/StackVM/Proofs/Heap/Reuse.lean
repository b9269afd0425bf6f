/-
  StackVM.Proofs.Heap.Reuse — which index a new object gets.

  An index is taken by an allocation and comes back when its object goes, by a release or by a collection, which gives
  the lowest index back first. A class hands out what came back last, and an index that has never been taken only when
  nothing is left that came back, the lowest one first. So it never uses more indices than objects of it live at one
  time. `Reuses c us peak h` says so of the heap `h` after `us` has happened to its indices, where `peak n` objects of
  class `n` have lived at one time.

  - `waiting`: the indices that have come back and wait to be taken again.
  - `Reuses.change`: one use of the heap keeps to it.
  - `Reuses.due`: the index on top of the free list is the one that is due.
-/

import StackVM.Proofs.Heap.Change

namespace StackVM

namespace Heap

/-! ## What happens to the indices -/

inductive Use
  | taken (i : UInt32)
  | returned (i : UInt32)
  deriving DecidableEq, Repr

/-- What an event that takes the heap from `h` to `h'` does to its indices. A collection goes through them in ascending
order. -/
def uses (h h' : Heap) : Option Event → List Use
  | some (.made x) => [.taken x.index]
  | some (.released x true) => [.returned x.index]
  | some (.collected _) => (lost h h').map .returned
  | _ => []

/-- The indices that have come back and have not been taken again since, the latest first. -/
def waiting : List Use → List UInt32
  | [] => []
  | .taken _ :: us => waiting us
  | .returned i :: us => if .taken i ∈ us then waiting us else waiting us ++ [i]

theorem waiting_taken (us : List Use) (i : UInt32) : waiting (us ++ [.taken i]) = (waiting us).filter (· != i) := by
  induction us with
  | nil => rfl
  | cons u us ih =>
    cases u with
    | taken j => exact ih
    | returned j =>
      rw [List.cons_append, waiting, waiting, ih]
      by_cases hj : j = i
      · subst hj
        rw [if_pos (by simp)]
        split
        next => rfl
        next => simp
      · have hmem : Use.taken j ∈ us ++ [.taken i] ↔ .taken j ∈ us := by simp [hj]
        simp only [hmem]
        split <;> simp [hj]

theorem waiting_returned (us : List Use) (i : UInt32) : waiting (us ++ [.returned i]) = i :: waiting us := by
  induction us with
  | nil => rfl
  | cons u us ih =>
    cases u with
    | taken j => exact ih
    | returned j =>
      have hmem : Use.taken j ∈ us ++ [.returned i] ↔ .taken j ∈ us := by simp
      rw [List.cons_append, waiting, waiting, ih]
      simp only [hmem]
      split <;> rfl

theorem waiting_returns (us : List Use) (l : List UInt32) :
    waiting (us ++ l.map .returned) = l.reverse ++ waiting us := by
  induction l generalizing us with
  | nil => simp
  | cons i l ih =>
    have hsplit : us ++ (i :: l).map Use.returned = (us ++ [.returned i]) ++ l.map .returned := by simp
    rw [hsplit, ih, waiting_returned]
    simp

/-! ## One class -/

/-- Of the indices that wait, those of class `n`. -/
def waitingIn (c : Config) (n : Nat) (us : List Use) : List UInt32 :=
  (waiting us).filter fun i => i.toNat / c.capacity == n

/-- The indices of class `n` from the `m`-th on. -/
def untouched (c : Config) (n m : Nat) : List UInt32 :=
  (List.range' (n * c.capacity + m) (c.capacity - m)).map UInt32.ofNat

/-- A class of which the first `m` indices have been used, and no others. -/
structure Ordered (c : Config) (n : Nat) (us : List Use) (m : Nat) (k : SizeClass) : Prop where
  /-- What came back last is handed out first, and what has never been taken after all that came back. -/
  free : k.free = waitingIn c n us ++ untouched c n m
  used : ∀ i : UInt32, i.toNat / c.capacity = n → (.taken i ∈ us ↔ i.toNat < n * c.capacity + m)
  le : m ≤ c.capacity

/-- All classes are in order, the number of indices used being the most objects that have lived at one time. -/
def Reuses (c : Config) (us : List Use) (peak : Nat → Nat) (h : Heap) : Prop :=
  ∀ (n : Nat) (k : SizeClass), h.classes[n]? = some k → Ordered c n us (peak n) k

variable {c : Config} {h h' : Heap} {n m : Nat} {k : SizeClass} {us : List Use} {i : UInt32}

theorem mem_waitingIn : i ∈ waitingIn c n us ↔ i ∈ waiting us ∧ i.toNat / c.capacity = n := by
  simp [waitingIn]

theorem length_untouched : (untouched c n m).length = c.capacity - m := by
  simp [untouched]

theorem untouched_of_lt (hm : m < c.capacity) :
    untouched c n m = UInt32.ofNat (n * c.capacity + m) :: untouched c n (m + 1) := by
  obtain ⟨rest, hrest⟩ : ∃ rest, c.capacity - m = rest + 1 := ⟨c.capacity - m - 1, by omega⟩
  have hnext : c.capacity - (m + 1) = rest := by omega
  simp only [untouched, hrest, hnext, List.range'_succ, List.map_cons, Nat.add_assoc]

theorem untouched_of_le (hm : c.capacity ≤ m) : untouched c n m = [] := by
  rw [untouched, Nat.sub_eq_zero_of_le hm]
  rfl

theorem Books.bounds (hb : Books c h) (hi : i.toNat / c.capacity = n) :
    n * c.capacity ≤ i.toNat ∧ i.toNat < n * c.capacity + c.capacity := by
  have hpos := hb.capacityPos
  rw [Nat.div_eq_iff hpos] at hi
  omega

theorem Books.class_of_top {rest : List UInt32} (hb : Books c h) (hk : h.classes[n]? = some k) (hf : k.free = i :: rest) :
    i.toNat / c.capacity = n :=
  ((hb.memFree n k hk i).mp (by rw [hf]; exact List.mem_cons_self)).1

theorem Books.toNat_untouched (hb : Books c h) (hn : n < h.classes.size) (hm : m < c.capacity) :
    (UInt32.ofNat (n * c.capacity + m)).toNat = n * c.capacity + m ∧ (n * c.capacity + m) / c.capacity = n := by
  have hclass : (n * c.capacity + m) / c.capacity = n := by
    rw [Nat.div_eq_iff hb.capacityPos]
    omega
  exact ⟨hb.toNat_ofNat (hb.lt_of_mem_window hn (hb.mem_window.mpr hclass)), hclass⟩

theorem Books.mem_untouched (hb : Books c h) (hn : n < h.classes.size) (hi : i.toNat / c.capacity = n) :
    i ∈ untouched c n m ↔ n * c.capacity + m ≤ i.toNat := by
  obtain ⟨hle, hlt⟩ := hb.bounds hi
  simp only [untouched, List.mem_map, List.mem_range'_1]
  constructor
  · rintro ⟨j, ⟨hj, hj'⟩, rfl⟩
    obtain ⟨l, rfl⟩ : ∃ l, j = n * c.capacity + l := ⟨j - n * c.capacity, by omega⟩
    rwa [(hb.toNat_untouched hn (by omega)).1]
  · intro hm
    exact ⟨i.toNat, ⟨hm, by omega⟩, UInt32.ofNat_toNat⟩

namespace Ordered

/-- What waits has been used. -/
theorem lt_of_waiting (ho : Ordered c n us m k) (hb : Books c h) (hk : h.classes[n]? = some k)
    (hi : i ∈ waitingIn c n us) : i.toNat < n * c.capacity + m := by
  have hn := (Array.getElem?_eq_some_iff.mp hk).1
  refine Nat.lt_of_not_le fun hle => ?_
  -- it would be on the free list twice
  have hnodup := hb.freeNodup n k hk
  rw [ho.free, List.nodup_append] at hnodup
  exact hnodup.2.2 i hi i ((hb.mem_untouched hn (mem_waitingIn.mp hi).2).mpr hle) rfl

theorem live_add (ho : Ordered c n us m k) (hb : Books c h) (hk : h.classes[n]? = some k) :
    h.census n + (waitingIn c n us).length = m := by
  have hcount := hb.counted n k hk
  have hle := ho.le
  rw [hb.live_eq_census hk, ho.free, List.length_append, length_untouched] at hcount
  omega

/-- No more objects live than indices have been used. -/
theorem census_le (ho : Ordered c n us m k) (hb : Books c h) (hk : h.classes[n]? = some k) : h.census n ≤ m := by
  have hsum := ho.live_add hb hk
  omega

/-- A used index is live or waits. -/
theorem live_or_waiting (ho : Ordered c n us m k) (hb : Books c h) (hk : h.classes[n]? = some k)
    (hi : i.toNat / c.capacity = n) (hused : .taken i ∈ us) : h.liveAt i.toNat = true ∨ i ∈ waitingIn c n us := by
  have hn := (Array.getElem?_eq_some_iff.mp hk).1
  have hsize := hb.lt_of_mem_window hn (hb.mem_window.mpr hi)
  cases hl : h.liveAt i.toNat with
  | true => exact .inl rfl
  | false =>
    right
    have hfree := (hb.memFree n k hk i).mpr ⟨hi, hsize, hl⟩
    rw [ho.free, List.mem_append] at hfree
    refine hfree.resolve_right fun hnew => ?_
    have hle := (hb.mem_untouched hn hi).mp hnew
    have hlt := (ho.used i hi).mp hused
    omega

end Ordered

/-! ## One use of the heap -/

/-- A class whose free list and indices nothing happens to. -/
theorem Ordered.aside {us' : List Use} {k' : SizeClass} (ho : Ordered c n us m k) (hfree : k'.free = k.free)
    (hwaiting : waitingIn c n (us ++ us') = waitingIn c n us)
    (hused : ∀ i : UInt32, i.toNat / c.capacity = n → .taken i ∉ us') : Ordered c n (us ++ us') m k' where
  free := by rw [hfree, hwaiting, ho.free]
  used := fun i hi => by
    rw [← ho.used i hi, List.mem_append, or_iff_left (hused i hi)]
  le := ho.le

theorem waitingIn_taken (us : List Use) (i : UInt32) :
    waitingIn c n (us ++ [.taken i]) = (waitingIn c n us).filter (· != i) := by
  rw [waitingIn, waiting_taken, waitingIn, List.filter_filter, List.filter_filter]
  simp only [Bool.and_comm]

theorem waitingIn_returns (us : List Use) (l : List UInt32) :
    waitingIn c n (us ++ l.map .returned) =
      (l.filter fun i => i.toNat / c.capacity == n).reverse ++ waitingIn c n us := by
  rw [waitingIn, waiting_returns, List.filter_append, List.filter_reverse, waitingIn]

/-- Indices come back to a class. -/
theorem Ordered.returns {k' : SizeClass} {l : List UInt32} (ho : Ordered c n us m k)
    (hfree : k'.free = (l.filter fun i => i.toNat / c.capacity == n).reverse ++ k.free) :
    Ordered c n (us ++ l.map .returned) m k' where
  free := by rw [hfree, waitingIn_returns, ho.free, List.append_assoc]
  used := fun i hi => by
    rw [← ho.used i hi, List.mem_append, or_iff_left (by simp)]
  le := ho.le

/-- The index of a new object comes from the top of the free list. -/
theorem Ordered.take {rest : List UInt32} (ho : Ordered c n us m k) (hb : Books c h) (hk : h.classes[n]? = some k)
    (hf : k.free = i :: rest) :
    (waitingIn c n us).head? = some i ∧ .taken i ∈ us ∧ Ordered c n (us ++ [.taken i]) m k.take ∨
      waitingIn c n us = [] ∧ i.toNat = n * c.capacity + m ∧ Ordered c n (us ++ [.taken i]) (m + 1) k.take := by
  have hn := (Array.getElem?_eq_some_iff.mp hk).1
  have hclass : i.toNat / c.capacity = n := hb.class_of_top hk hf
  have hnodup := hb.freeNodup n k hk
  have hfree := ho.free
  rw [hf] at hfree hnodup
  cases hw : waitingIn c n us with
  | cons j ws =>
    left
    rw [hw, List.cons_append, List.cons.injEq] at hfree
    obtain ⟨rfl, hrest⟩ := hfree
    have hlt : i.toNat < n * c.capacity + m := ho.lt_of_waiting hb hk (by rw [hw]; exact List.mem_cons_self)
    have hused : .taken i ∈ us := (ho.used i hclass).mpr hlt
    refine ⟨rfl, hused, ?_, fun j hj => ?_, ho.le⟩
    · have hno : i ∉ ws := fun hi => (List.nodup_cons.mp hnodup).1 (hrest ▸ List.mem_append_left _ hi)
      have hsame : ws.filter (· != i) = ws := List.filter_eq_self.mpr fun j hj => by
        rw [bne_iff_ne]
        exact fun e => hno (e ▸ hj)
      rw [waitingIn_taken, hw, List.filter_cons_of_neg (by simp), hsame]
      simp [SizeClass.take, hf, hrest]
    · rw [← ho.used j hj, List.mem_append, List.mem_singleton, or_iff_left_of_imp]
      intro e
      cases e
      exact hused
  | nil =>
    right
    rw [hw, List.nil_append] at hfree
    have hm : m < c.capacity := by
      refine Nat.lt_of_not_le fun hle => ?_
      rw [untouched_of_le hle] at hfree
      cases hfree
    rw [untouched_of_lt hm, List.cons.injEq] at hfree
    obtain ⟨rfl, hrest⟩ := hfree
    have hnat := (hb.toNat_untouched hn hm).1
    refine ⟨rfl, hnat, ?_, fun j hj => ?_, hm⟩
    · rw [waitingIn_taken, hw]
      simp [SizeClass.take, hf, hrest]
    · rw [List.mem_append, List.mem_singleton, ho.used j hj, Use.taken.injEq, ← UInt32.toNat_inj, hnat]
      omega

/-- Where nothing happens to the free lists, the class is as it was. -/
theorem Reuses.same {peak : Nat → Nat} (hr : Reuses c us peak h) (hcls : h'.classes = h.classes) {k' : SizeClass}
    (hk' : h'.classes[n]? = some k') : Ordered c n (us ++ []) (peak n) k' := by
  rw [List.append_nil]
  exact hr n k' (hcls ▸ hk')

/-- A class after one of its objects, or one of another class, is made. -/
theorem Reuses.made {peak : Nat → Nat} {n' : Nat} {k' : SizeClass} {rest : List UInt32} (hr : Reuses c us peak h)
    (hb : Books c h) (hk : h.classes[n']? = some k) (hf : k.free = i :: rest)
    (hk' : (h.handOut n' i).2.classes[n]? = some k') :
    Ordered c n (us ++ [.taken i]) (peak n) k' ∨
      waitingIn c n (us ++ [.taken i]) = [] ∧ Ordered c n (us ++ [.taken i]) (peak n + 1) k' := by
  have hi : i.toNat / c.capacity = n' := hb.class_of_top hk hf
  simp only [handOut, classes_updateEntry, classes_updateClass] at hk'
  split at hk'
  next hn =>
    subst hn
    rw [hk, Option.map_some, Option.some.injEq] at hk'
    subst hk'
    rcases (hr n' k hk).take hb hk hf with ⟨-, -, ho⟩ | ⟨hnone, -, ho⟩
    · exact .inl ho
    · exact .inr ⟨by rw [waitingIn_taken, hnone]; rfl, ho⟩
  next hn =>
    have hne : ∀ j : UInt32, j.toNat / c.capacity = n → j ≠ i := fun j hj e => hn (by rw [← hi, ← e, hj])
    refine .inl ((hr n k' hk').aside rfl ?_ fun j hj hmem => ?_)
    · rw [waitingIn_taken, List.filter_eq_self]
      intro j hj
      exact bne_iff_ne.mpr (hne j (mem_waitingIn.mp hj).2)
    · cases List.mem_singleton.mp hmem
      exact hne i hj rfl

theorem Books.free_retire {k' : SizeClass} (hb : Books c h) (hi : i.toNat < h.entries.size)
    (hk' : (h.retire i).classes[n]? = some k') : ∃ k, h.classes[n]? = some k ∧
      k'.free = ([i].filter fun i => i.toNat / c.capacity == n).reverse ++ k.free := by
  simp only [Heap.retire, classes_updateClass, classes_updateEntry, hb.classAt_eq hi] at hk'
  split at hk'
  next hn =>
    obtain ⟨k, hk, rfl⟩ := Option.map_eq_some_iff.mp hk'
    exact ⟨k, hk, by simp [SizeClass.recycle, hn]⟩
  next hn => exact ⟨k', hk', by simp [hn]⟩

theorem Sound.free_collect {k' : SizeClass} (hs : Sound c h) (roots : List Value)
    (hk' : (h.collect roots).2.classes[n]? = some k') : ∃ k, h.classes[n]? = some k ∧
      k'.free = ((lost h (h.collect roots).2).filter fun i => i.toNat / c.capacity == n).reverse ++ k.free := by
  by_cases hheld : h.held = []
  · have hcol := hs.collects hheld roots
    have hn : n < h.classes.size := by
      rw [hs.books.classCount, ← (hs.collect roots).books.classCount]
      exact (Array.getElem?_eq_some_iff.mp hk').1
    have hk := Array.getElem?_eq_getElem hn
    rw [hcol.returns n _ hk, Option.some.injEq] at hk'
    have hclass : lostOf h (h.collect roots).2 n =
        (lost h (h.collect roots).2).filter fun i => i.toNat / c.capacity == n := by
      refine List.filter_congr fun i hi => ?_
      have hl := (List.mem_filter.mp hi).2
      rw [Bool.and_eq_true] at hl
      rw [hs.books.classAt_eq (liveAt_lt hl.1)]
    exact ⟨_, hk, by rw [← hk', hclass]⟩
  · have hsame : (h.collect roots).2 = h := by simp [Heap.collect, hheld]
    have hnone : lost h h = [] := by
      rw [lost, List.filter_eq_nil_iff]
      intro i _
      cases h.liveAt i.toNat <;> simp
    rw [hsame] at hk' ⊢
    exact ⟨k', hk', by rw [hnone]; rfl⟩

theorem Reuses.change {peak : Nat → Nat} {e : Option Event} (hr : Reuses c us peak h) (hs : Sound c h)
    (hc : Change h e h') : Reuses c (us ++ uses h h' e) (fun n => max (peak n) (h'.census n)) h' := by
  intro n k' hk'
  show Ordered c n _ (max (peak n) (h'.census n)) k'
  have hb' := (hs.change hc).books
  -- one more index is used only when none waits, and then as many objects live as indices have been used
  suffices hcases : Ordered c n (us ++ uses h h' e) (peak n) k' ∨
      waitingIn c n (us ++ uses h h' e) = [] ∧ Ordered c n (us ++ uses h h' e) (peak n + 1) k' by
    rcases hcases with ho | ⟨hnone, ho⟩
    · rwa [Nat.max_eq_left (ho.census_le hb' hk')]
    · have hsum := ho.live_add hb' hk'
      rw [hnone, List.length_nil, Nat.add_zero] at hsum
      rwa [hsum, Nat.max_eq_right (Nat.le_succ _)]
  cases hc with
  | none | wrote | retained | dropped => exact .inl (hr.same rfl hk')
  | made hk hf => exact hr.made hs.books hk hf hk'
  | @freed x hx hlast hfree =>
    obtain ⟨k, hk, hfree⟩ := hs.books.free_retire (liveAt_lt (liveAt_of_isValid hx)) hk'
    exact .inl ((hr n k hk).returns hfree)
  | collected roots =>
    obtain ⟨k, hk, hfree⟩ := hs.free_collect roots hk'
    exact .inl ((hr n k hk).returns hfree)

/-! ## The next index -/

/-- The index that is due when an object of class `n` is made: the one that has come back last, or where none waits the
lowest that has never been taken, in which case all that have been are live. -/
inductive Due (c : Config) (us : List Use) (h : Heap) (n : Nat) (i : UInt32) : Prop
  | again : (waitingIn c n us).head? = some i → .taken i ∈ us → Due c us h n i
  | new : waitingIn c n us = [] → .taken i ∉ us →
      (∀ j : UInt32, j.toNat / c.capacity = n → (.taken j ∈ us ↔ j < i)) →
      (∀ j : UInt32, j.toNat / c.capacity = n → .taken j ∈ us → h.liveAt j.toNat = true) → Due c us h n i

theorem Reuses.due {peak : Nat → Nat} {rest : List UInt32} (hr : Reuses c us peak h) (hb : Books c h)
    (hk : h.classes[n]? = some k) (hf : k.free = i :: rest) : Due c us h n i := by
  have ho := hr n k hk
  have hclass : i.toNat / c.capacity = n := hb.class_of_top hk hf
  rcases ho.take hb hk hf with ⟨hhead, hused, -⟩ | ⟨hnone, hnat, -⟩
  · exact .again hhead hused
  · have hlower : ∀ j : UInt32, j.toNat / c.capacity = n → (.taken j ∈ us ↔ j < i) := fun j hj => by
      rw [ho.used j hj, UInt32.lt_iff_toNat_lt, hnat]
    refine .new hnone (fun hused => ?_) hlower fun j hj hused => ?_
    · exact UInt32.lt_irrefl i ((hlower i hclass).mp hused)
    · refine (ho.live_or_waiting hb hk hj hused).resolve_right fun hwaits => ?_
      rw [hnone] at hwaits
      cases hwaits

end Heap

end StackVM
