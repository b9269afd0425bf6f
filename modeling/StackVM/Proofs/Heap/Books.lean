/-
  StackVM.Proofs.Heap.Books — the heap's books.

  Three places say which entries of the table are in use: the free list of each class, its counter of live
  objects and the live flag of each entry. `Books c h` says that on a heap set up from the configuration `c`
  they agree, and that the table still has the shape it was set up with.

  - `books_build`: they agree on a new heap.
  - `Books.handOut`, `Books.retire`, `Books.congr`: they agree after an entry is handed out, after one is
    taken out of life, and after any change that leaves all three places and the shape alone.
  - `Books.live_eq_census`: the counter of a class is the number of live entries in its window.
-/

import StackVM.Heap.Object

namespace StackVM

/-- What the books look at in an entry. -/
def Entry.outline (e : Entry) : UInt32 × Nat × Bool := (e.sizeClass, e.slots.size, e.live)

namespace Heap

/-! ## Views of the table -/

/-- The entry at an index is live. -/
def liveAt (h : Heap) (i : Nat) : Bool := h.entries[i]?.any (·.live)

/-- The indices that class `n` owns. -/
def window (h : Heap) (n : Nat) : List Nat := List.range' (n * h.capacity) h.capacity

/-- How many entries of class `n` are live, counted in the table. -/
def census (h : Heap) (n : Nat) : Nat := (h.window n).countP h.liveAt

theorem nodup_window (h : Heap) (n : Nat) : (h.window n).Nodup := List.nodup_range'

theorem liveAt_of_entry {h : Heap} {i : Nat} {e : Entry} (he : h.entries[i]? = some e) : h.liveAt i = e.live := by
  simp [liveAt, he]

theorem entry_of_liveAt {h : Heap} {i : Nat} (hl : h.liveAt i = true) :
    ∃ e, h.entries[i]? = some e ∧ e.live = true := by
  simpa [liveAt, Option.any_eq_true] using hl

theorem lt_of_entry {h : Heap} {i : Nat} {e : Entry} (he : h.entries[i]? = some e) : i < h.entries.size :=
  (Array.getElem?_eq_some_iff.mp he).1

theorem liveAt_lt {h : Heap} {i : Nat} (hl : h.liveAt i = true) : i < h.entries.size := by
  obtain ⟨e, he, -⟩ := entry_of_liveAt hl
  exact lt_of_entry he

/-! ## Updates, seen entry by entry and class by class -/

@[simp] theorem entries_updateEntry (h : Heap) (i : UInt32) (f : Entry → Entry) (j : Nat) :
    (h.updateEntry i f).entries[j]? = if i.toNat = j then h.entries[j]?.map f else h.entries[j]? := by
  simp only [updateEntry, Array.getElem?_modify]

@[simp] theorem classes_updateClass (h : Heap) (n : Nat) (f : SizeClass → SizeClass) (j : Nat) :
    (h.updateClass n f).classes[j]? = if n = j then h.classes[j]?.map f else h.classes[j]? := by
  simp only [updateClass, Array.getElem?_modify]

@[simp] theorem classes_updateEntry (h : Heap) (i : UInt32) (f : Entry → Entry) :
    (h.updateEntry i f).classes = h.classes := rfl
@[simp] theorem size_updateEntry (h : Heap) (i : UInt32) (f : Entry → Entry) :
    (h.updateEntry i f).entries.size = h.entries.size := by
  simp [updateEntry]
@[simp] theorem entries_updateClass (h : Heap) (n : Nat) (f : SizeClass → SizeClass) :
    (h.updateClass n f).entries = h.entries := rfl
@[simp] theorem size_updateClass (h : Heap) (n : Nat) (f : SizeClass → SizeClass) :
    (h.updateClass n f).classes.size = h.classes.size := by
  simp [updateClass]

theorem entries_handOut (h : Heap) (n : Nat) (i : UInt32) (j : Nat) :
    (h.handOut n i).2.entries[j]? = if i.toNat = j then h.entries[j]?.map Entry.revive else h.entries[j]? := by
  simp [handOut]

theorem entries_retire (h : Heap) (i : UInt32) (j : Nat) :
    (h.retire i).entries[j]? = if i.toNat = j then h.entries[j]?.map Entry.kill else h.entries[j]? := by
  simp [retire]

theorem liveAt_updateEntry (h : Heap) (i : UInt32) (f : Entry → Entry) (j : Nat) :
    (h.updateEntry i f).liveAt j = if i.toNat = j then h.entries[j]?.any fun e => (f e).live else h.liveAt j := by
  simp only [liveAt, entries_updateEntry]
  split
  · cases h.entries[j]? <;> rfl
  · rfl

@[simp] theorem liveAt_updateClass (h : Heap) (n : Nat) (f : SizeClass → SizeClass) (j : Nat) :
    (h.updateClass n f).liveAt j = h.liveAt j := rfl

/-! ## The books -/

structure Books (c : Config) (h : Heap) : Prop where
  capacityPos : 0 < c.capacity
  tableSmall : c.sizeClasses.length * c.capacity ≤ maxObjects
  capacity : h.capacity = c.capacity
  classCount : h.classes.size = c.sizeClasses.length
  tableSize : h.entries.size = c.sizeClasses.length * c.capacity
  /-- Every entry belongs to the class in whose window it lies, and has that class's number of slots. -/
  shape : ∀ (i : Nat) (e : Entry), h.entries[i]? = some e →
    e.sizeClass.toNat = i / c.capacity ∧ c.sizeClasses[i / c.capacity]? = some e.slots.size
  classShape : ∀ (n : Nat) (k : SizeClass), h.classes[n]? = some k →
    c.sizeClasses[n]? = some k.slots ∧ k.first = n * c.capacity
  freeNodup : ∀ (n : Nat) (k : SizeClass), h.classes[n]? = some k → k.free.Nodup
  /-- The free list has the indices of the window whose entries are not live. -/
  memFree : ∀ (n : Nat) (k : SizeClass), h.classes[n]? = some k → ∀ i : UInt32,
    i ∈ k.free ↔ i.toNat / c.capacity = n ∧ i.toNat < h.entries.size ∧ h.liveAt i.toNat = false
  /-- What is not on the free list is counted. -/
  counted : ∀ (n : Nat) (k : SizeClass), h.classes[n]? = some k → k.live + k.free.length = c.capacity

namespace Books

variable {c : Config} {h : Heap}

theorem size_le (hb : Books c h) : h.entries.size ≤ maxObjects := by
  rw [hb.tableSize]; exact hb.tableSmall

theorem size_le_word (hb : Books c h) : h.entries.size ≤ UInt32.size := Nat.le_trans hb.size_le (by decide)

/-- Every position of the table is an index of 32 bits. -/
theorem lt_of_lt_size (hb : Books c h) {i : Nat} (hi : i < h.entries.size) : i < UInt32.size :=
  Nat.lt_of_lt_of_le hi hb.size_le_word

theorem toNat_ofNat (hb : Books c h) {i : Nat} (hi : i < h.entries.size) : (UInt32.ofNat i).toNat = i :=
  UInt32.toNat_ofNat_of_lt' (hb.lt_of_lt_size hi)

/-- Every index of the table lies in the window of one class. -/
theorem class_of_index (hb : Books c h) {i : Nat} (hi : i < h.entries.size) :
    ∃ k, h.classes[i / c.capacity]? = some k := by
  have hn : i / c.capacity < h.classes.size := by
    rw [hb.tableSize] at hi
    rw [hb.classCount]
    exact Nat.div_lt_of_lt_mul (by rwa [Nat.mul_comm])
  exact ⟨_, Array.getElem?_eq_getElem hn⟩

theorem classAt_eq (hb : Books c h) {i : UInt32} (hi : i.toNat < h.entries.size) :
    h.classAt i = i.toNat / c.capacity := by
  have he := Array.getElem?_eq_getElem hi
  simp only [classAt, he, Option.map_some, Option.getD_some]
  exact (hb.shape _ _ he).1

theorem mem_window (hb : Books c h) {n i : Nat} : i ∈ h.window n ↔ i / c.capacity = n := by
  rw [window, List.mem_range'_1, hb.capacity, Nat.div_eq_iff hb.capacityPos]
  constructor <;> rintro ⟨h1, h2⟩ <;> refine ⟨h1, ?_⟩ <;> have := hb.capacityPos <;> omega

theorem lt_of_mem_window (hb : Books c h) {n i : Nat} (hn : n < h.classes.size) (hi : i ∈ h.window n) :
    i < h.entries.size := by
  rw [hb.classCount, ← hb.mem_window.mp hi] at hn
  rw [hb.tableSize]
  exact (Nat.div_lt_iff_lt_mul hb.capacityPos).mp hn

theorem not_live_of_mem_free (hb : Books c h) {n : Nat} {k : SizeClass} (hk : h.classes[n]? = some k) {i : UInt32}
    (hi : i ∈ k.free) : h.liveAt i.toNat = false :=
  ((hb.memFree n k hk i).mp hi).2.2

/-! ## The counters -/

/-- The free list is the window without its live indices, in some order. -/
theorem free_perm (hb : Books c h) {n : Nat} {k : SizeClass} (hk : h.classes[n]? = some k) :
    (k.free.map UInt32.toNat).Perm ((h.window n).filter fun i => !h.liveAt i) := by
  have hn : n < h.classes.size := (Array.getElem?_eq_some_iff.mp hk).1
  have hnodup : (k.free.map UInt32.toNat).Nodup :=
    List.Pairwise.map _ (fun _ _ hne he => hne (UInt32.toNat_inj.mp he)) (hb.freeNodup n k hk)
  have hfilter : ((h.window n).filter fun i => !h.liveAt i).Nodup := List.Pairwise.filter _ (nodup_window h n)
  rw [List.perm_ext_iff_of_nodup hnodup hfilter]
  intro i
  rw [List.mem_filter, hb.mem_window, List.mem_map]
  constructor
  · rintro ⟨j, hj, rfl⟩
    obtain ⟨h1, -, h3⟩ := (hb.memFree n k hk j).mp hj
    exact ⟨h1, by simp [h3]⟩
  · rintro ⟨h1, h2⟩
    have hi := hb.lt_of_mem_window hn (hb.mem_window.mpr h1)
    have he := hb.toNat_ofNat hi
    exact ⟨UInt32.ofNat i, (hb.memFree n k hk _).mpr (by rw [he]; exact ⟨h1, hi, by simpa using h2⟩), he⟩

/-- The counter of a class is the number of live entries in its window. -/
theorem live_eq_census (hb : Books c h) {n : Nat} {k : SizeClass} (hk : h.classes[n]? = some k) :
    k.live = h.census n := by
  have hlen : k.free.length = (h.window n).countP fun i => !h.liveAt i := by
    rw [← List.length_map (f := UInt32.toNat), (hb.free_perm hk).length_eq, List.countP_eq_length_filter]
  have hsum := List.length_eq_countP_add_countP h.liveAt (l := h.window n)
  have hw : (h.window n).length = c.capacity := by rw [window, List.length_range', hb.capacity]
  have hnot : (h.window n).countP (fun i => decide ¬h.liveAt i = true) = (h.window n).countP fun i => !h.liveAt i := by
    congr 1; funext i; cases h.liveAt i <;> rfl
  have := hb.counted n k hk
  rw [hw, hnot] at hsum
  unfold census
  omega

theorem live_pos (hb : Books c h) {i : Nat} {k : SizeClass} (hl : h.liveAt i = true)
    (hk : h.classes[i / c.capacity]? = some k) : 0 < k.live := by
  rw [hb.live_eq_census hk, census, List.countP_pos_iff]
  exact ⟨i, hb.mem_window.mpr rfl, hl⟩

/-! ## Changes that keep the books in agreement -/

/-- The books do not look at slot values, counts, generations and marks, nor at who is inside an object. -/
theorem congr {h' : Heap} (hb : Books c h) (hcap : h'.capacity = h.capacity) (hcls : h'.classes = h.classes)
    (hent : h'.entries.map Entry.outline = h.entries.map Entry.outline) : Books c h' := by
  have hsize : h'.entries.size = h.entries.size := by simpa using congrArg Array.size hent
  have hat : ∀ i : Nat, (h'.entries[i]?).map Entry.outline = (h.entries[i]?).map Entry.outline := by
    intro i; simpa using congrArg (·[i]?) hent
  have hlive : ∀ i, h'.liveAt i = h.liveAt i := by
    intro i
    have := congrArg (Option.any (·.2.2)) (hat i)
    simpa [liveAt, Option.any_map, Entry.outline, Function.comp_def] using this
  refine ⟨hb.capacityPos, hb.tableSmall, hcap.trans hb.capacity, hcls ▸ hb.classCount, hsize.trans hb.tableSize,
    fun i e he => ?_, hcls ▸ hb.classShape, hcls ▸ hb.freeNodup, fun n k hk i => ?_, hcls ▸ hb.counted⟩
  · have hm := hat i
    rw [he, Option.map_some] at hm
    obtain ⟨e₀, he₀, ho⟩ := Option.map_eq_some_iff.mp hm.symm
    simp only [Entry.outline, Prod.mk.injEq] at ho
    rw [← ho.1, ← ho.2.1]
    exact hb.shape i e₀ he₀
  · rw [hsize, hlive]
    exact hb.memFree n k (hcls ▸ hk) i

/-- A change to one entry that its outline does not show. -/
theorem updateEntry (hb : Books c h) {i : UInt32} {f : Entry → Entry} (hf : ∀ e, (f e).outline = e.outline) :
    Books c (h.updateEntry i f) := by
  refine hb.congr rfl rfl (Array.ext_getElem? fun j => ?_)
  rw [Array.getElem?_map, Array.getElem?_map, entries_updateEntry]
  split
  · cases h.entries[j]? <;> simp [hf]
  · rfl

theorem holding (hb : Books c h) (l : List UInt32) : Books c { h with held := l } :=
  hb.congr rfl rfl rfl

/-! ## Handing out and taking out of life -/

theorem liveAt_update {i : UInt32} {f : Entry → Entry} {alive : Bool} (hi : i.toNat < h.entries.size)
    (hf : ∀ e, (f e).live = alive) (j : Nat) :
    (h.updateEntry i f).liveAt j = if i.toNat = j then alive else h.liveAt j := by
  rw [liveAt_updateEntry]
  split
  next e => subst e; simp [Array.getElem?_eq_getElem hi, hf]
  next => rfl

/-- The entry at an index changes its live flag and its class moves the index onto or off the free list. -/
theorem exchange (hb : Books c h) {k : SizeClass} {i : UInt32} {f : Entry → Entry} {g : SizeClass → SizeClass}
    (alive : Bool) (hi : i.toNat < h.entries.size) (hk : h.classes[i.toNat / c.capacity]? = some k)
    (hf : ∀ e, (f e).outline = (e.sizeClass, e.slots.size, alive))
    (hg : (g k).slots = k.slots ∧ (g k).first = k.first) (hnodup : (g k).free.Nodup)
    (hmem : ∀ j, j ∈ (g k).free ↔ if j = i then alive = false else j ∈ k.free)
    (hcount : (g k).live + (g k).free.length = k.live + k.free.length) :
    Books c ((h.updateEntry i f).updateClass (i.toNat / c.capacity) g) := by
  -- every class but the index's own keeps its record
  have hcls : ∀ (n : Nat) (k' : SizeClass),
      ((h.updateEntry i f).updateClass (i.toNat / c.capacity) g).classes[n]? = some k' →
      (n = i.toNat / c.capacity ∧ k' = g k) ∨ (n ≠ i.toNat / c.capacity ∧ h.classes[n]? = some k') := by
    intro n k' hk'
    rw [classes_updateClass, classes_updateEntry] at hk'
    split at hk'
    next e =>
      subst e
      rw [hk, Option.map_some, Option.some.injEq] at hk'
      exact .inl ⟨rfl, hk'.symm⟩
    next e => exact .inr ⟨Ne.symm e, hk'⟩
  have hlive := liveAt_update hi fun e => congrArg (·.2.2) (hf e)
  refine ⟨hb.capacityPos, hb.tableSmall, hb.capacity, by simpa using hb.classCount, by simpa using hb.tableSize,
    fun j e he => ?_, fun n k' hk' => ?_, fun n k' hk' => ?_, fun n k' hk' j => ?_, fun n k' hk' => ?_⟩
  · rw [entries_updateClass, entries_updateEntry] at he
    split at he
    · obtain ⟨e₀, he₀, rfl⟩ := Option.map_eq_some_iff.mp he
      have ho := hf e₀
      simp only [Entry.outline, Prod.mk.injEq] at ho
      rw [ho.1, ho.2.1]
      exact hb.shape j e₀ he₀
    · exact hb.shape j e he
  · rcases hcls n k' hk' with ⟨rfl, rfl⟩ | ⟨-, h'⟩
    · rw [hg.1, hg.2]; exact hb.classShape _ k hk
    · exact hb.classShape n k' h'
  · rcases hcls n k' hk' with ⟨rfl, rfl⟩ | ⟨-, h'⟩
    · exact hnodup
    · exact hb.freeNodup n k' h'
  · rw [entries_updateClass, size_updateEntry, liveAt_updateClass, hlive]
    rcases hcls n k' hk' with ⟨rfl, rfl⟩ | ⟨hne, h'⟩
    · rw [hmem]
      by_cases e : j = i
      · subst e; simp [hi]
      · have e' : ¬ i.toNat = j.toNat := fun he => e (UInt32.toNat_inj.mp he).symm
        rw [if_neg e, if_neg e']
        exact hb.memFree _ k hk j
    · by_cases e : i.toNat = j.toNat
      · have hno : j.toNat / c.capacity ≠ n := by rw [← e]; exact Ne.symm hne
        have hno' : j ∉ k'.free := fun hm => hno ((hb.memFree n k' h' j).mp hm).1
        simp [hno, hno']
      · rw [if_neg e]
        exact hb.memFree n k' h' j
  · rcases hcls n k' hk' with ⟨rfl, rfl⟩ | ⟨-, h'⟩
    · rw [hcount]; exact hb.counted _ k hk
    · exact hb.counted n k' h'

/-- The head of a free list becomes a new object. -/
theorem handOut (hb : Books c h) {n : Nat} {k : SizeClass} {i : UInt32} {rest : List UInt32}
    (hk : h.classes[n]? = some k) (hf : k.free = i :: rest) : Books c (h.handOut n i).2 := by
  have hmem : i ∈ k.free := by rw [hf]; exact List.mem_cons_self
  obtain ⟨rfl, hi, -⟩ := (hb.memFree n k hk i).mp hmem
  have hnd := hb.freeNodup _ k hk
  rw [hf, List.nodup_cons] at hnd
  refine hb.exchange (g := SizeClass.take) true hi hk
    (fun e => by simp [Entry.outline, Entry.revive]) ⟨rfl, rfl⟩ ?_ (fun j => ?_) ?_
  · simpa [SizeClass.take, hf] using hnd.2
  · simp only [SizeClass.take, hf, List.tail_cons, List.mem_cons]
    by_cases e : j = i
    · subst e; simp [hnd.1]
    · simp [e]
  · simp only [SizeClass.take, hf, List.length_cons, List.tail_cons]
    omega

/-- A live object is taken out of life. -/
theorem retire (hb : Books c h) {i : UInt32} (hl : h.liveAt i.toNat = true) : Books c (h.retire i) := by
  have hi := liveAt_lt hl
  obtain ⟨k, hk⟩ := hb.class_of_index hi
  have hno : i ∉ k.free := fun hm => by
    have := hb.not_live_of_mem_free hk hm
    rw [hl] at this; cases this
  have hpos := hb.live_pos hl hk
  simp only [Heap.retire, hb.classAt_eq hi]
  refine hb.exchange (g := (·.recycle i)) false hi hk
    (fun e => by simp [Entry.outline, Entry.kill]) ⟨rfl, rfl⟩ ?_ (fun j => ?_) ?_
  · exact List.nodup_cons.mpr ⟨hno, hb.freeNodup _ k hk⟩
  · simp only [SizeClass.recycle, List.mem_cons]
    by_cases e : j = i <;> simp [e]
  · simp only [SizeClass.recycle, List.length_cons]
    omega

end Books

/-! ## The number of live objects -/

/-- The live objects of a list of classes. -/
def liveIn : List SizeClass → Nat
  | [] => 0
  | k :: ks => k.live + liveIn ks

theorem foldl_live (l : List SizeClass) (n : Nat) : l.foldl (fun n k => n + k.live) n = n + liveIn l := by
  induction l generalizing n with
  | nil => rfl
  | cons k ks ih => rw [List.foldl_cons, ih, liveIn, Nat.add_assoc]

theorem liveObjects_eq_liveIn (h : Heap) : h.liveObjects = liveIn h.classes.toList := by
  rw [liveObjects, ← Array.foldl_toList, foldl_live, Nat.zero_add]

theorem liveIn_modify {l : List SizeClass} {n : Nat} {k : SizeClass} (f : SizeClass → SizeClass)
    (hk : l[n]? = some k) : liveIn (l.modify n f) + k.live = liveIn l + (f k).live := by
  induction l generalizing n with
  | nil => cases hk
  | cons a l ih =>
    cases n with
    | zero =>
      simp only [List.getElem?_cons_zero, Option.some.injEq] at hk
      subst hk
      simp only [List.modify_zero_cons, liveIn]
      omega
    | succ n =>
      have := ih (n := n) (by simpa using hk)
      simp only [List.modify_succ_cons, liveIn]
      omega

theorem liveIn_eq_zero {l : List SizeClass} (hl : ∀ k ∈ l, k.live = 0) : liveIn l = 0 := by
  induction l with
  | nil => rfl
  | cons k ks ih =>
    rw [liveIn, hl k List.mem_cons_self, ih fun k' hk' => hl k' (List.mem_cons_of_mem _ hk')]

theorem liveObjects_updateClass {h : Heap} {n : Nat} {k : SizeClass} (f : SizeClass → SizeClass)
    (hk : h.classes[n]? = some k) : (h.updateClass n f).liveObjects + k.live = h.liveObjects + (f k).live := by
  rw [liveObjects_eq_liveIn, liveObjects_eq_liveIn, updateClass, Array.toList_modify]
  exact liveIn_modify f (by rw [Array.getElem?_toList]; exact hk)

@[simp] theorem liveObjects_updateEntry (h : Heap) (i : UInt32) (f : Entry → Entry) :
    (h.updateEntry i f).liveObjects = h.liveObjects := rfl

theorem liveObjects_handOut {h : Heap} {n : Nat} {k : SizeClass} (hk : h.classes[n]? = some k) (i : UInt32) :
    (h.handOut n i).2.liveObjects = h.liveObjects + 1 := by
  have := liveObjects_updateClass SizeClass.take hk
  simp only [SizeClass.take] at this
  rw [show (h.handOut n i).2.liveObjects = (h.updateClass n SizeClass.take).liveObjects from rfl]
  omega

theorem Books.liveObjects_retire {c : Config} {h : Heap} (hb : Books c h) {i : UInt32}
    (hl : h.liveAt i.toNat = true) : (h.retire i).liveObjects + 1 = h.liveObjects := by
  obtain ⟨k, hk⟩ := hb.class_of_index (liveAt_lt hl)
  have hpos := hb.live_pos hl hk
  have := liveObjects_updateClass (h := h.updateEntry i Entry.kill) (·.recycle i) hk
  rw [show (k.recycle i).live = k.live - 1 from rfl, liveObjects_updateEntry] at this
  simp only [Heap.retire, hb.classAt_eq (liveAt_lt hl)]
  omega

/-- Where no object is counted none is live. -/
theorem Books.not_live_of_liveObjects {c : Config} {h : Heap} (hb : Books c h) (h0 : h.liveObjects = 0) (i : UInt32) :
    h.liveAt i.toNat = false := by
  cases hl : h.liveAt i.toNat with
  | false => rfl
  | true =>
    have := hb.liveObjects_retire hl
    omega

/-! ## A new heap -/

theorem badLength?_eq_none {i : Nat} {l : List Nat} (h : Config.badLength? i l = none) :
    ∀ n ∈ l, 0 < n ∧ n ≤ maxSlots := by
  induction l generalizing i with
  | nil => intro n hn; cases hn
  | cons m rest ih =>
    simp only [Config.badLength?] at h
    split at h
    · cases h
    next hm =>
      simp only [Bool.or_eq_true, beq_iff_eq, decide_eq_true_eq, not_or] at hm
      intro n hn
      rcases List.mem_cons.mp hn with rfl | hn
      · omega
      · exact ih h n hn

/-- What a configuration that is not refused promises. -/
theorem Config.bounds_of_check {c : Config} (hc : c.check = .ok ()) :
    c.sizeClasses ≠ [] ∧ 0 < c.capacity ∧ (∀ n ∈ c.sizeClasses, 0 < n ∧ n ≤ maxSlots) ∧
      c.sizeClasses.length * c.capacity ≤ maxObjects := by
  unfold Config.check at hc
  split at hc
  · cases hc
  next hne =>
    have hne : c.sizeClasses ≠ [] := by simpa using hne
    split at hc
    · cases hc
    next hpos =>
      split at hc
      · cases hc
      next hlen =>
        split at hc
        · cases hc
        next hle =>
          have hcap : c.capacity ≤ maxObjects / c.sizeClasses.length := by omega
          refine ⟨hne, Nat.pos_of_ne_zero (by simpa using hpos), badLength?_eq_none hlen, ?_⟩
          calc c.sizeClasses.length * c.capacity
              ≤ c.sizeClasses.length * (maxObjects / c.sizeClasses.length) := Nat.mul_le_mul_left _ hcap
            _ ≤ maxObjects := Nat.mul_div_le _ _

theorem length_flatten_of_length {α : Type} {w : Nat} {L : List (List α)} (hL : ∀ l ∈ L, l.length = w) :
    L.flatten.length = L.length * w := by
  induction L with
  | nil => simp
  | cons l L ih =>
    rw [List.flatten_cons, List.length_append, hL l List.mem_cons_self,
      ih fun l hl => hL l (List.mem_cons_of_mem _ hl), List.length_cons, Nat.succ_mul, Nat.add_comm]

/-- A list cut into pieces of one width is read piece by piece. -/
theorem getElem?_flatten_of_length {α : Type} {w : Nat} (hw : 0 < w) {L : List (List α)}
    (hL : ∀ l ∈ L, l.length = w) (i : Nat) : L.flatten[i]? = L[i / w]?.bind (·[i % w]?) := by
  induction L generalizing i with
  | nil => simp
  | cons l L ih =>
    have hl := hL l List.mem_cons_self
    rw [List.flatten_cons]
    by_cases hi : i < w
    · rw [List.getElem?_append_left (by omega), Nat.div_eq_of_lt hi, Nat.mod_eq_of_lt hi]
      rfl
    · obtain ⟨j, rfl⟩ : ∃ j, i = j + w := ⟨i - w, by omega⟩
      rw [List.getElem?_append_right (by omega), hl, Nat.add_sub_cancel,
        ih (fun l hl => hL l (List.mem_cons_of_mem _ hl)) j, Nat.add_div_right _ hw, Nat.add_mod_right,
        List.getElem?_cons_succ]

theorem toList_entries_build (c : Config) : (build c).entries.toList =
    (c.sizeClasses.mapIdx fun i n => List.replicate c.capacity (Entry.fresh i n)).flatten := by
  have hmap : (c.sizeClasses.mapIdx fun i n => Array.replicate c.capacity (Entry.fresh i n)).map Array.toList =
      c.sizeClasses.mapIdx fun i n => List.replicate c.capacity (Entry.fresh i n) := by
    refine List.ext_getElem? fun i => ?_
    rw [List.getElem?_map, List.getElem?_mapIdx, List.getElem?_mapIdx]
    cases c.sizeClasses[i]? <;> simp
  rw [← hmap]
  simp [build]

theorem length_piece (c : Config) :
    ∀ l ∈ c.sizeClasses.mapIdx (fun i n => List.replicate c.capacity (Entry.fresh i n)), l.length = c.capacity := by
  intro l hl
  obtain ⟨i, hi, rfl⟩ := List.mem_mapIdx.mp hl
  exact List.length_replicate

theorem size_build (c : Config) : (build c).entries.size = c.sizeClasses.length * c.capacity := by
  rw [← Array.length_toList, toList_entries_build, length_flatten_of_length (length_piece c), List.length_mapIdx]

theorem entries_build {c : Config} (hpos : 0 < c.capacity) (i : Nat) :
    (build c).entries[i]? = (c.sizeClasses[i / c.capacity]?).map (Entry.fresh (i / c.capacity)) := by
  rw [← Array.getElem?_toList, toList_entries_build, getElem?_flatten_of_length hpos (length_piece c),
    List.getElem?_mapIdx]
  cases c.sizeClasses[i / c.capacity]? with
  | none => rfl
  | some n => simp [Nat.mod_lt _ hpos]

theorem classes_build (c : Config) (n : Nat) :
    (build c).classes[n]? = (c.sizeClasses[n]?).map (newClass c.capacity n) := by
  simp [build]

theorem liveAt_build {c : Config} (hpos : 0 < c.capacity) (i : Nat) : (build c).liveAt i = false := by
  rw [liveAt, entries_build hpos]
  cases c.sizeClasses[i / c.capacity]? <;> rfl

theorem liveObjects_build (c : Config) : (build c).liveObjects = 0 := by
  rw [liveObjects_eq_liveIn]
  refine liveIn_eq_zero fun k hk => ?_
  obtain ⟨i, hi⟩ := List.mem_iff_getElem?.mp hk
  rw [Array.getElem?_toList, classes_build] at hi
  obtain ⟨m, -, rfl⟩ := Option.map_eq_some_iff.mp hi
  rfl

theorem books_build {c : Config} (hc : c.check = .ok ()) : Books c (build c) := by
  obtain ⟨-, hpos, -, hsmall⟩ := Config.bounds_of_check hc
  have hword : ∀ i, i < c.sizeClasses.length * c.capacity → i < UInt32.size := by
    have : maxObjects < UInt32.size := by decide
    intro i hi; omega
  have hmem : ∀ (n : Nat) (k : SizeClass), (build c).classes[n]? = some k →
      n < c.sizeClasses.length ∧ ∃ m, c.sizeClasses[n]? = some m ∧ k = newClass c.capacity n m := by
    intro n k hk
    rw [classes_build] at hk
    obtain ⟨m, hm, rfl⟩ := Option.map_eq_some_iff.mp hk
    exact ⟨(List.getElem?_eq_some_iff.mp hm).1, m, hm, rfl⟩
  have hlt : ∀ n i, n < c.sizeClasses.length → i < n * c.capacity + c.capacity →
      i < c.sizeClasses.length * c.capacity := by
    intro n i hn hi
    have := Nat.mul_le_mul_right c.capacity hn
    rw [Nat.succ_mul] at this
    omega
  refine ⟨hpos, hsmall, rfl, by simp [build], size_build c, fun i e he => ?_, fun n k hk => ?_, fun n k hk => ?_,
    fun n k hk i => ?_, fun n k hk => ?_⟩
  · rw [entries_build hpos] at he
    obtain ⟨m, hm, rfl⟩ := Option.map_eq_some_iff.mp he
    have hi : i / c.capacity < c.sizeClasses.length := (List.getElem?_eq_some_iff.mp hm).1
    have hle := Nat.le_mul_of_pos_right c.sizeClasses.length hpos
    exact ⟨UInt32.toNat_ofNat_of_lt' (hword _ (by omega)), by simpa [Entry.fresh] using hm⟩
  · obtain ⟨-, m, hm, rfl⟩ := hmem n k hk
    exact ⟨hm, rfl⟩
  · obtain ⟨hn, m, -, rfl⟩ := hmem n k hk
    have hword' : ∀ x ∈ List.range' (n * c.capacity) c.capacity, x < UInt32.size := fun x hx =>
      hword x (hlt n x hn (List.mem_range'_1.mp hx).2)
    refine List.pairwise_map.mpr (List.Pairwise.imp_of_mem (fun {a b} ha hb hne he => hne ?_) (nodup_window (build c) n))
    have := congrArg UInt32.toNat he
    rwa [UInt32.toNat_ofNat_of_lt' (hword' a ha), UInt32.toNat_ofNat_of_lt' (hword' b hb)] at this
  · obtain ⟨hn, m, -, rfl⟩ := hmem n k hk
    rw [liveAt_build hpos, size_build, Nat.div_eq_iff hpos]
    simp only [newClass, List.mem_map, List.mem_range'_1]
    constructor
    · rintro ⟨j, ⟨h1, h2⟩, rfl⟩
      have hj := hlt n j hn h2
      rw [UInt32.toNat_ofNat_of_lt' (hword j hj)]
      exact ⟨⟨h1, by omega⟩, hj, trivial⟩
    · rintro ⟨⟨h1, h2⟩, -⟩
      exact ⟨i.toNat, ⟨h1, by omega⟩, UInt32.ofNat_toNat⟩
  · obtain ⟨-, m, -, rfl⟩ := hmem n k hk
    simp [newClass]

end Heap

end StackVM
