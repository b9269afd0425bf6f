/-
  StackVM.Proofs.Heap.Setup — which configurations are accepted, and how the table is laid out.

  A configuration is handed over in words of 64 bits and the table is set up in them: the size of the table, the first
  index of a class, the place of an entry's slots in the block of its class and the index of every entry are computed
  in words that wrap around; the number of a class and the indices on the free lists are cut to 32 bits, the number of
  slots to 8. `setUp` goes through it entry by entry and has no result where it would write outside the table.

  The limit on the table is tested by a division, which cannot wrap. A configuration that passes has a table of at most
  `maxObjects` entries, and below that no word wraps and nothing is cut off.

  - `WordConfig.check_eq`, `Config.check_eq_ok_iff`: what the checks come to in numbers.
  - `writeEntries_window`, `pushIndices_eq`: what one class writes into the table and onto its free list.
  - `Bounded`, `Filled.next`, `addClasses_filled`: the table after one class more, and after all of them.
  - `setUp_eq`: the set-up in words is the one in numbers.
  - `laidOut_build`, `setUp_exact`: what is accepted, and the table that results.
-/

import StackVM.Proofs.Heap.Collection

namespace StackVM

namespace Heap

/-! ## The set-up in words -/

/-- A configuration as it is handed over. -/
structure WordConfig where
  sizeClasses : List UInt64
  capacity : UInt64
  /-- The length of a list in memory is a word. -/
  length_lt : sizeClasses.length < UInt64.size

namespace WordConfig

/-- The number of classes. -/
def count (c : WordConfig) : UInt64 := UInt64.ofNat c.sizeClasses.length

/-- The numbers that the words stand for. -/
def config (c : WordConfig) : Config := ⟨c.sizeClasses.map UInt64.toNat, c.capacity.toNat⟩

def badLength? (i : UInt64) : List UInt64 → Option HeapError
  | [] => none
  | n :: rest =>
    if n == 0 || UInt64.ofNat maxSlots < n then some (.badLength i.toNat n.toNat) else badLength? (i + 1) rest

def check (c : WordConfig) : Except HeapError Unit :=
  if c.sizeClasses.isEmpty then .error .noClasses
  else if c.capacity == 0 then .error .noCapacity
  else match badLength? 0 c.sizeClasses with
    | some e => .error e
    | none =>
      if UInt64.ofNat maxObjects / c.count < c.capacity then .error (.tooLarge c.count.toNat c.capacity.toNat)
      else .ok ()

end WordConfig

/-- Entry `i` of class `k`. Its slots are a stretch of the block of the class. -/
def entryAt (k slots : UInt64) (block : Array Value) (i : UInt64) : Entry where
  slots := block.extract (i * slots).toNat ((i * slots).toNat + slots.toUInt8.toNat)
  generation := 0
  refCount := 0
  sizeClass := k.toUInt32
  live := false
  marked := false

/-- Writes the next `n` entries, from `entry i` on, into the window that starts at `first`. -/
def writeEntries (first : UInt64) (entry : UInt64 → Entry) : Nat → UInt64 → Array Entry → Option (Array Entry)
  | 0, _, t => some t
  | n + 1, i, t =>
    if (first + i).toNat < t.size then
      writeEntries first entry n (i + 1) (t.setIfInBounds (first + i).toNat (entry i))
    else none

/-- Puts the first `n` indices of the window that starts at `first` on a free list, the lowest on top. -/
def pushIndices (first : UInt64) : Nat → List UInt32 → List UInt32
  | 0, l => l
  | n + 1, l => pushIndices first n ((first + UInt64.ofNat (n + 1) - 1).toUInt32 :: l)

/-- Sets up one class after the other, from class `k` on. -/
def addClasses (capacity : UInt64) :
    UInt64 → List UInt64 → Array SizeClass → Array Entry → Option (Array SizeClass × Array Entry)
  | _, [], classes, entries => some (classes, entries)
  | k, slots :: rest, classes, entries => do
    let first := k * capacity
    let block := Array.replicate (slots * capacity).toNat (.raw 0)
    let entries ← writeEntries first (entryAt k slots block) capacity.toNat 0 entries
    let cls := ⟨slots.toNat, first.toNat, pushIndices first capacity.toNat [], 0⟩
    addClasses capacity (k + 1) rest (classes.push cls) entries

def setUp (c : WordConfig) : Option (Except HeapError Heap) :=
  match c.check with
  | .error e => some (.error e)
  | .ok () => do
    let table := Array.replicate (c.count * c.capacity).toNat default
    let (classes, entries) ← addClasses c.capacity 0 c.sizeClasses #[] table
    return .ok ⟨classes, entries, c.capacity.toNat, []⟩

/-! ## Words that do not wrap -/

theorem toNat_add_of_lt {a b : UInt64} (h : a.toNat + b.toNat < UInt64.size) :
    (a + b).toNat = a.toNat + b.toNat := by
  rw [UInt64.toNat_add]; exact Nat.mod_eq_of_lt h

theorem toNat_mul_of_lt {a b : UInt64} (h : a.toNat * b.toNat < UInt64.size) :
    (a * b).toNat = a.toNat * b.toNat := by
  rw [UInt64.toNat_mul]; exact Nat.mod_eq_of_lt h

theorem toUInt32_eq (a : UInt64) : a.toUInt32 = UInt32.ofNat a.toNat := rfl

/-! ## The checks -/

namespace WordConfig

variable (c : WordConfig)

@[simp] theorem toNat_count : c.count.toNat = c.sizeClasses.length := UInt64.toNat_ofNat_of_lt' c.length_lt

@[simp] theorem length_config : c.config.sizeClasses.length = c.sizeClasses.length := List.length_map _

theorem badLength?_eq {i : UInt64} {l : List UInt64} (h : i.toNat + l.length < UInt64.size) :
    badLength? i l = Config.badLength? i.toNat (l.map UInt64.toNat) := by
  induction l generalizing i with
  | nil => rfl
  | cons n rest ih =>
    have hbad : (n == 0 || decide (UInt64.ofNat maxSlots < n)) = (n.toNat == 0 || decide (maxSlots < n.toNat)) := by
      rw [Bool.eq_iff_iff]
      simp only [Bool.or_eq_true, beq_iff_eq, decide_eq_true_eq, UInt64.lt_iff_toNat_lt, ← UInt64.toNat_inj]
      rfl
    have hi : (i + 1).toNat = i.toNat + 1 := toNat_add_of_lt (by simp at h ⊢; omega)
    have hrest := ih (i := i + 1) (by rw [hi]; simp at h ⊢; omega)
    simp only [badLength?, Config.badLength?, List.map_cons, hbad, hrest, hi]

theorem check_eq : c.check = c.config.check := by
  have hempty : c.config.sizeClasses.isEmpty = c.sizeClasses.isEmpty := List.isEmpty_map
  have hpos : (c.capacity == 0) = (c.config.capacity == 0) := by
    rw [Bool.eq_iff_iff]; simp [config, ← UInt64.toNat_inj]
  have hbad : badLength? 0 c.sizeClasses = Config.badLength? 0 c.config.sizeClasses :=
    badLength?_eq (by simpa using c.length_lt)
  have hlimit : UInt64.ofNat maxObjects / c.count < c.capacity ↔
      maxObjects / c.config.sizeClasses.length < c.config.capacity := by
    rw [UInt64.lt_iff_toNat_lt, UInt64.toNat_div, toNat_count, length_config]
    rfl
  simp only [check, Config.check, hempty, hpos, hbad, hlimit, toNat_count, length_config]
  rfl

end WordConfig

theorem badLength?_of_lengths {i : Nat} {l : List Nat} (h : ∀ n ∈ l, 0 < n ∧ n ≤ maxSlots) :
    Config.badLength? i l = none := by
  induction l generalizing i with
  | nil => rfl
  | cons n rest ih =>
    have hn := h n List.mem_cons_self
    have hgood : ¬ (n == 0 || decide (maxSlots < n)) = true := by simp; omega
    rw [Config.badLength?, if_neg hgood]
    exact ih fun m hm => h m (List.mem_cons_of_mem _ hm)

theorem status_of_badLength? {i : Nat} {l : List Nat} {e : HeapError} (h : Config.badLength? i l = some e) :
    e.status = .invalidConfiguration := by
  induction l generalizing i with
  | nil => cases h
  | cons n rest ih =>
    rw [Config.badLength?] at h
    split at h
    · cases h; rfl
    · exact ih h

namespace Config

theorem check_eq_ok_iff {c : Config} : c.check = .ok () ↔
    c.sizeClasses ≠ [] ∧ 0 < c.capacity ∧ (∀ n ∈ c.sizeClasses, 0 < n ∧ n ≤ maxSlots) ∧
      c.sizeClasses.length * c.capacity ≤ maxObjects := by
  refine ⟨bounds_of_check, fun ⟨hne, hpos, hlen, hsmall⟩ => ?_⟩
  have hfits : ¬ maxObjects / c.sizeClasses.length < c.capacity := by
    rw [Nat.not_lt, Nat.le_div_iff_mul_le (List.length_pos_iff.mpr hne), Nat.mul_comm]
    exact hsmall
  have hempty : ¬ c.sizeClasses.isEmpty = true := by simpa using hne
  have hzero : ¬ (c.capacity == 0) = true := by simp; omega
  simp only [check, if_neg hempty, if_neg hzero, badLength?_of_lengths hlen, if_neg hfits]

theorem status_of_check {c : Config} {e : HeapError} (h : c.check = .error e) :
    e.status = .invalidConfiguration := by
  unfold check at h
  split at h
  · cases h; rfl
  split at h
  · cases h; rfl
  split at h
  next he => cases h; exact status_of_badLength? he
  split at h
  · cases h; rfl
  · cases h

end Config

/-! ## One class -/

/-- The window gets its entries and the rest of the table stays as it is. -/
theorem writeEntries_window {first : UInt64} {n : Nat} {i : UInt64} {t : Array Entry}
    (hfit : first.toNat + i.toNat + n ≤ t.size) (hsize : t.size < UInt64.size) (entry : UInt64 → Entry) :
    ∃ t', writeEntries first entry n i t = some t' ∧ t'.size = t.size ∧
      ∀ j, t'[j]? = if first.toNat + i.toNat ≤ j ∧ j < first.toNat + i.toNat + n then
        some (entry (UInt64.ofNat (j - first.toNat))) else t[j]? := by
  induction n generalizing i t with
  | zero =>
    refine ⟨t, rfl, rfl, fun j => (if_neg ?_).symm⟩
    omega
  | succ n ih =>
    have hat : (first + i).toNat = first.toNat + i.toNat := toNat_add_of_lt (by omega)
    have hnext : (i + 1).toNat = i.toNat + 1 := toNat_add_of_lt (by simp; omega)
    obtain ⟨t', ht', hsize', hread⟩ := ih (i := i + 1)
      (t := t.setIfInBounds (first + i).toNat (entry i)) (by simp [hnext]; omega) (by simpa using hsize)
    refine ⟨t', ?_, by simpa using hsize', fun j => ?_⟩
    · rw [writeEntries, if_pos (by omega)]
      exact ht'
    · rw [hread, hnext, Array.getElem?_setIfInBounds, hat]
      by_cases hj : j = first.toNat + i.toNat
      · subst hj
        rw [if_neg (by omega), if_pos rfl, if_pos (by omega), if_pos (by omega), Nat.add_sub_cancel_left,
          UInt64.ofNat_toNat]
      · rw [if_neg (Ne.symm hj)]
        congr 1
        simp only [eq_iff_iff]
        omega

theorem pushIndices_eq {first : UInt64} {n : Nat} (h : first.toNat + n < UInt64.size) (l : List UInt32) :
    pushIndices first n l = (List.range' first.toNat n).map UInt32.ofNat ++ l := by
  induction n generalizing l with
  | zero => rfl
  | succ n ih =>
    have hn : (UInt64.ofNat (n + 1)).toNat = n + 1 := UInt64.toNat_ofNat_of_lt' (by omega)
    have hsum : (first + UInt64.ofNat (n + 1)).toNat = first.toNat + (n + 1) := by
      rw [toNat_add_of_lt (by omega), hn]
    have hlast : (first + UInt64.ofNat (n + 1) - 1).toNat = first.toNat + n := by
      rw [UInt64.toNat_sub_of_le _ _ (by rw [UInt64.le_iff_toNat_le, hsum, UInt64.toNat_one]; omega), hsum]
      rfl
    rw [pushIndices, ih (by omega), List.range'_1_concat, List.map_append, List.append_assoc, toUInt32_eq, hlast]
    rfl

/-- As long as the block of the class is counted by a word, an entry is one that has never been handed out. -/
theorem entryAt_eq {k slots capacity i : UInt64} (hslots : slots.toNat ≤ maxSlots) (hi : i.toNat < capacity.toNat)
    (hblock : slots.toNat * capacity.toNat < UInt64.size) :
    entryAt k slots (Array.replicate (slots * capacity).toNat (.raw 0)) i = Entry.fresh k.toNat slots.toNat := by
  have hend : (i.toNat + 1) * slots.toNat ≤ slots.toNat * capacity.toNat := by
    rw [Nat.mul_comm slots.toNat]
    exact Nat.mul_le_mul_right _ hi
  rw [Nat.succ_mul] at hend
  have hsize : slots.toUInt8.toNat = slots.toNat := by
    rw [UInt64.toNat_toUInt8]
    exact Nat.mod_eq_of_lt (Nat.lt_of_le_of_lt hslots (by decide))
  have hslots : (Array.replicate (slots * capacity).toNat (Value.raw 0)).extract (i * slots).toNat
      ((i * slots).toNat + slots.toUInt8.toNat) = Array.replicate slots.toNat (.raw 0) := by
    rw [Array.extract_replicate, toNat_mul_of_lt hblock, toNat_mul_of_lt (by omega), hsize, Nat.min_eq_left hend,
      Nat.add_sub_cancel_left]
  simp only [entryAt, Entry.fresh, hslots, toUInt32_eq]

/-! ## All classes -/

/-- What keeps the words of an accepted configuration from wrapping. -/
structure Bounded (c : WordConfig) : Prop where
  capacityPos : 0 < c.capacity.toNat
  lengths : ∀ n ∈ c.sizeClasses, n.toNat ≤ maxSlots
  tableSmall : c.sizeClasses.length * c.capacity.toNat ≤ maxObjects

section

variable {c : WordConfig} {n : Nat} {slots : UInt64} {classes : Array SizeClass} {entries : Array Entry}

theorem bounded_of_check (hc : c.check = .ok ()) : Bounded c := by
  rw [c.check_eq] at hc
  obtain ⟨-, hpos, hlen, hsmall⟩ := Config.bounds_of_check hc
  rw [c.length_config] at hsmall
  exact ⟨hpos, fun n hn => (hlen n.toNat (List.mem_map_of_mem hn)).2, hsmall⟩

namespace Bounded

theorem table_lt (hb : Bounded c) : c.sizeClasses.length * c.capacity.toNat < UInt64.size :=
  Nat.lt_of_le_of_lt hb.tableSmall (by decide)

/-- The window of a class lies in the table. -/
theorem window_le (hn : n < c.sizeClasses.length) :
    n * c.capacity.toNat + c.capacity.toNat ≤ c.sizeClasses.length * c.capacity.toNat := by
  rw [← Nat.succ_mul]
  exact Nat.mul_le_mul_right _ hn

theorem toNat_index (hn : n < c.sizeClasses.length) : (UInt64.ofNat n).toNat = n :=
  UInt64.toNat_ofNat_of_lt' (Nat.lt_trans hn c.length_lt)

theorem toNat_first (hb : Bounded c) (hn : n < c.sizeClasses.length) :
    (UInt64.ofNat n * c.capacity).toNat = n * c.capacity.toNat := by
  have hlt : n * c.capacity.toNat < UInt64.size := by
    have := window_le hn
    have := hb.table_lt
    omega
  rw [toNat_mul_of_lt (by rw [toNat_index hn]; exact hlt), toNat_index hn]

/-- The slots of all objects of a class can be counted by a word. -/
theorem block_lt (hb : Bounded c) (hn : n < c.sizeClasses.length) (hslots : slots.toNat ≤ maxSlots) :
    slots.toNat * c.capacity.toNat < UInt64.size := by
  have hcapacity : c.capacity.toNat ≤ maxObjects := by
    have := window_le hn
    have := hb.tableSmall
    omega
  calc slots.toNat * c.capacity.toNat
      ≤ maxSlots * maxObjects := Nat.mul_le_mul hslots hcapacity
    _ < UInt64.size := by decide

/-- The record of a class is that of a new one. -/
theorem record_eq (hb : Bounded c) (hn : n < c.sizeClasses.length) :
    (⟨slots.toNat, (UInt64.ofNat n * c.capacity).toNat,
      pushIndices (UInt64.ofNat n * c.capacity) c.capacity.toNat [], 0⟩ : SizeClass) =
      newClass c.capacity.toNat n slots.toNat := by
  have hfirst := hb.toNat_first hn
  have hlt : (UInt64.ofNat n * c.capacity).toNat + c.capacity.toNat < UInt64.size := by
    rw [hfirst]
    exact Nat.lt_of_le_of_lt (window_le hn) hb.table_lt
  rw [pushIndices_eq hlt, List.append_nil, hfirst]
  rfl

end Bounded

/-- The first `n` classes and their windows are as on a new heap. -/
structure Filled (c : WordConfig) (n : Nat) (classes : Array SizeClass) (entries : Array Entry) : Prop where
  le_length : n ≤ c.sizeClasses.length
  classCount : classes.size = n
  tableSize : entries.size = c.sizeClasses.length * c.capacity.toNat
  class_eq : ∀ i, i < n → classes[i]? = (build c.config).classes[i]?
  entry_eq : ∀ i, i < n * c.capacity.toNat → entries[i]? = (build c.config).entries[i]?

/-- One class more. -/
theorem Filled.next (hb : Bounded c) (hf : Filled c n classes entries) (hn : c.sizeClasses[n]? = some slots) :
    ∃ entries', writeEntries (UInt64.ofNat n * c.capacity)
        (entryAt (UInt64.ofNat n) slots (Array.replicate (slots * c.capacity).toNat (.raw 0))) c.capacity.toNat 0
        entries = some entries' ∧
      Filled c (n + 1) (classes.push ⟨slots.toNat, (UInt64.ofNat n * c.capacity).toNat,
        pushIndices (UInt64.ofNat n * c.capacity) c.capacity.toNat [], 0⟩) entries' := by
  obtain ⟨hlt, hget⟩ := List.getElem?_eq_some_iff.mp hn
  have hslots : slots.toNat ≤ maxSlots := hb.lengths slots (hget ▸ List.getElem_mem hlt)
  have hfirst := hb.toNat_first hlt
  have hconfig : c.config.sizeClasses[n]? = some slots.toNat := by simp [WordConfig.config, hn]
  have hfit : (UInt64.ofNat n * c.capacity).toNat + (0 : UInt64).toNat + c.capacity.toNat ≤ entries.size := by
    rw [hfirst, hf.tableSize]
    exact Bounded.window_le hlt
  obtain ⟨entries', hw, hsize, hread⟩ := writeEntries_window hfit (by rw [hf.tableSize]; exact hb.table_lt)
    (entryAt (UInt64.ofNat n) slots (Array.replicate (slots * c.capacity).toNat (.raw 0)))
  rw [hfirst, UInt64.toNat_zero, Nat.add_zero] at hread
  rw [hb.record_eq hlt]
  refine ⟨entries', hw, hlt, by simp [hf.classCount], hsize.trans hf.tableSize, fun i hi => ?_, fun i hi => ?_⟩
  · rw [Array.getElem?_push, hf.classCount]
    split
    next e =>
      subst e
      rw [classes_build, hconfig]
      rfl
    next e => exact hf.class_eq i (by omega)
  · rw [hread]
    split
    next hin =>
      -- the entry was written just now
      have hclass : i / c.capacity.toNat = n := by
        rw [Nat.div_eq_iff hb.capacityPos]
        omega
      have hoffset : (UInt64.ofNat (i - n * c.capacity.toNat)).toNat < c.capacity.toNat := by
        have := UInt64.toNat_lt_size c.capacity
        rw [UInt64.toNat_ofNat_of_lt' (by omega)]
        omega
      rw [entryAt_eq hslots hoffset (hb.block_lt hlt hslots), Bounded.toNat_index hlt,
        entries_build (c := c.config) hb.capacityPos]
      simp only [show c.config.capacity = c.capacity.toNat from rfl, hclass, hconfig, Option.map_some]
    next hout =>
      rw [Nat.succ_mul] at hi
      exact hf.entry_eq i (by omega)

theorem addClasses_filled (hb : Bounded c) {rest : List UInt64} (hf : Filled c n classes entries)
    (hrest : c.sizeClasses.drop n = rest) :
    ∃ classes' entries', addClasses c.capacity (UInt64.ofNat n) rest classes entries = some (classes', entries') ∧
      Filled c c.sizeClasses.length classes' entries' := by
  induction rest generalizing n classes entries with
  | nil =>
    have hn : n = c.sizeClasses.length := Nat.le_antisymm hf.le_length (List.drop_eq_nil_iff.mp hrest)
    exact ⟨classes, entries, rfl, hn ▸ hf⟩
  | cons slots rest ih =>
    have hn : c.sizeClasses[n]? = some slots := by
      rw [← List.head?_drop, hrest]; rfl
    have hnext : UInt64.ofNat n + 1 = UInt64.ofNat (n + 1) := by
      rw [UInt64.ofNat_add]; rfl
    obtain ⟨entries₁, hw, hf₁⟩ := hf.next hb hn
    obtain ⟨classes', entries', hadd, hf'⟩ := ih hf₁ (by rw [← List.drop_drop, hrest]; rfl)
    refine ⟨classes', entries', ?_, hf'⟩
    simp only [addClasses, hw, Option.bind_eq_bind, Option.bind_some, hnext]
    exact hadd

/-- A table in which all classes are filled in is that of a new heap. -/
theorem Filled.eq_build (hf : Filled c c.sizeClasses.length classes entries) :
    (⟨classes, entries, c.capacity.toNat, []⟩ : Heap) = build c.config := by
  have hclasses : classes = (build c.config).classes := by
    refine Array.ext (by rw [hf.classCount]; simp [build]) fun i h₁ h₂ => ?_
    have := hf.class_eq i (hf.classCount ▸ h₁)
    rwa [Array.getElem?_eq_getElem h₁, Array.getElem?_eq_getElem h₂, Option.some.injEq] at this
  have hentries : entries = (build c.config).entries := by
    refine Array.ext (by rw [hf.tableSize, size_build, c.length_config]; rfl) fun i h₁ h₂ => ?_
    have := hf.entry_eq i (hf.tableSize ▸ h₁)
    rwa [Array.getElem?_eq_getElem h₁, Array.getElem?_eq_getElem h₂, Option.some.injEq] at this
  rw [hclasses, hentries]
  rfl

end

/-- The set-up in words stays inside the table and comes to the same as the one in numbers. -/
theorem setUp_eq (c : WordConfig) : setUp c = some (ofConfig c.config) := by
  rw [setUp, ofConfig, ← c.check_eq]
  cases hc : c.check with
  | error e => rfl
  | ok _ =>
    have hb := bounded_of_check hc
    have htable : (c.count * c.capacity).toNat = c.sizeClasses.length * c.capacity.toNat := by
      rw [toNat_mul_of_lt (by rw [c.toNat_count]; exact hb.table_lt), c.toNat_count]
    have hempty : Filled c 0 #[] (Array.replicate (c.count * c.capacity).toNat default) :=
      ⟨Nat.zero_le _, rfl, by rw [Array.size_replicate, htable], fun i hi => by omega, fun i hi => by omega⟩
    obtain ⟨classes, entries, hadd, hf⟩ := addClasses_filled hb hempty rfl
    have hadd : addClasses c.capacity 0 c.sizeClasses #[] (Array.replicate (c.count * c.capacity).toNat default) =
        some (classes, entries) := hadd
    simp only [hadd, Option.bind_eq_bind, Option.bind_some, ← hf.eq_build]
    rfl

/-! ## What is accepted -/

/-- What a configuration has to be like. The product is that of the numbers, which does not wrap. -/
structure Acceptable (c : WordConfig) : Prop where
  nonempty : c.sizeClasses ≠ []
  capacityPos : 0 < c.capacity
  lengths : ∀ n ∈ c.sizeClasses, 1 ≤ n.toNat ∧ n.toNat ≤ 255
  tableSmall : c.sizeClasses.length * c.capacity.toNat ≤ 1 <<< 24

/-- Index `i` lies in the window of class `n`. -/
def InWindow (c : WordConfig) (n i : Nat) : Prop :=
  n * c.capacity.toNat ≤ i ∧ i < (n + 1) * c.capacity.toNat

/-- The heap has the table that the configuration asks for. -/
structure LaidOut (c : WordConfig) (h : Heap) : Prop where
  capacity : h.capacity = c.capacity.toNat
  classCount : h.classes.size = c.sizeClasses.length
  tableSize : h.entries.size = c.sizeClasses.length * c.capacity.toNat
  /-- The windows are a partition of the table: its indices are those that lie in a window, and lie in only one. -/
  partition : ∀ i, i < h.entries.size ↔
    ∃ n, n < c.sizeClasses.length ∧ InWindow c n i ∧ ∀ m, InWindow c m i → m = n
  /-- Every index fits in 32 bits. -/
  indexFits : ∀ i, i < h.entries.size → (UInt32.ofNat i).toNat = i
  /-- The entries of a window belong to its class and have the number of slots the class was configured with. -/
  entry : ∀ n i slots, c.sizeClasses[n]? = some slots → InWindow c n i →
    ∃ e, h.entries[i]? = some e ∧ e.sizeClass.toNat = n ∧ e.slots.size = slots.toNat ∧ e.live = false
  /-- The class's record has its configured length, its window, and the indices of the window in ascending order as its
  free list. -/
  record : ∀ n slots, c.sizeClasses[n]? = some slots → ∃ k, h.classes[n]? = some k ∧ k.slots = slots.toNat ∧
    k.first = n * c.capacity.toNat ∧ k.live = 0 ∧
    k.free.map UInt32.toNat = List.range' (n * c.capacity.toNat) c.capacity.toNat

theorem acceptable_iff {c : WordConfig} : Acceptable c ↔ c.config.check = .ok () := by
  rw [Config.check_eq_ok_iff]
  constructor
  · rintro ⟨hne, hpos, hlen, hsmall⟩
    refine ⟨by simpa [WordConfig.config] using hne, UInt64.lt_iff_toNat_lt.mp hpos, ?_, ?_⟩
    · intro m hm
      obtain ⟨n, hn, rfl⟩ := List.mem_map.mp hm
      exact hlen n hn
    · rw [c.length_config]; exact hsmall
  · rintro ⟨hne, hpos, hlen, hsmall⟩
    refine ⟨by simpa [WordConfig.config] using hne, UInt64.lt_iff_toNat_lt.mpr hpos, ?_, ?_⟩
    · exact fun n hn => hlen n.toNat (List.mem_map_of_mem hn)
    · rw [c.length_config] at hsmall; exact hsmall

theorem inWindow_iff {c : WordConfig} (hpos : 0 < c.capacity.toNat) {n i : Nat} :
    InWindow c n i ↔ i / c.capacity.toNat = n := by
  rw [InWindow, Nat.div_eq_iff hpos, Nat.succ_mul]
  omega

theorem laidOut_build {c : WordConfig} (hc : c.config.check = .ok ()) : LaidOut c (build c.config) := by
  have hb := books_build hc
  have hpos : 0 < c.capacity.toNat := hb.capacityPos
  have hsize : (build c.config).entries.size = c.sizeClasses.length * c.capacity.toNat := by
    rw [size_build, c.length_config]; rfl
  have hclass : ∀ {n : Nat} {slots : UInt64}, c.sizeClasses[n]? = some slots →
      c.config.sizeClasses[n]? = some slots.toNat := by
    intro n slots hn
    simp [WordConfig.config, hn]
  refine ⟨rfl, by simp [build], hsize, fun i => ?_, fun i hi => hb.toNat_ofNat hi, fun n i slots hn hi => ?_,
    fun n slots hn => ?_⟩
  · have hdiv : i < (build c.config).entries.size ↔ i / c.capacity.toNat < c.sizeClasses.length := by
      rw [hsize, Nat.div_lt_iff_lt_mul hpos]
    rw [hdiv]
    constructor
    · intro hi
      exact ⟨_, hi, (inWindow_iff hpos).mpr rfl, fun m hm => ((inWindow_iff hpos).mp hm).symm⟩
    · rintro ⟨n, hn, hw, -⟩
      rwa [(inWindow_iff hpos).mp hw]
  · have hi : i / c.config.capacity = n := (inWindow_iff hpos).mp hi
    have hn := hclass hn
    have he : (build c.config).entries[i]? = some (Entry.fresh n slots.toNat) := by
      rw [entries_build hb.capacityPos, hi, hn]; rfl
    obtain ⟨hcls, -⟩ := hb.shape i _ he
    exact ⟨_, he, hcls.trans hi, by simp [Entry.fresh], rfl⟩
  · have hn := hclass hn
    refine ⟨newClass c.capacity.toNat n slots.toNat, by rw [classes_build, hn]; rfl, rfl, rfl, rfl, ?_⟩
    have hwindow : ∀ i ∈ List.range' (n * c.capacity.toNat) c.capacity.toNat, (UInt32.ofNat i).toNat = i := by
      intro i hi
      refine hb.toNat_ofNat (hb.lt_of_mem_window (n := n) ?_ hi)
      rw [hb.classCount]
      exact (List.getElem?_eq_some_iff.mp hn).1
    calc ((List.range' (n * c.capacity.toNat) c.capacity.toNat).map UInt32.ofNat).map UInt32.toNat
        = (List.range' (n * c.capacity.toNat) c.capacity.toNat).map id := by
          rw [List.map_map]; exact List.map_congr_left hwindow
      _ = List.range' (n * c.capacity.toNat) c.capacity.toNat := List.map_id _

/-- A configuration is accepted if and only if it is acceptable, and is refused as a bad configuration otherwise; the
set-up never leaves the table, and the heap of an accepted configuration has the table that was asked for. -/
theorem setUp_exact (c : WordConfig) : ∃ r, setUp c = some r ∧ r = ofConfig c.config ∧
    ((∃ h, r = .ok h) ↔ Acceptable c) ∧
    (¬ Acceptable c → ∃ e, r = .error e ∧ e.status = .invalidConfiguration) ∧
    ∀ h, r = .ok h → LaidOut c h := by
  refine ⟨ofConfig c.config, setUp_eq c, rfl, ?_, fun hno => ?_, fun h hh => ?_⟩
  · rw [acceptable_iff]
    exact ⟨fun ⟨h, hh⟩ => (check_of_ofConfig hh).1, fun hc => ⟨build c.config, by rw [ofConfig, hc]⟩⟩
  · rw [acceptable_iff] at hno
    cases hc : c.config.check with
    | ok _ => exact absurd hc hno
    | error e => exact ⟨e, by rw [ofConfig, hc], Config.status_of_check hc⟩
  · obtain ⟨hc, rfl⟩ := check_of_ofConfig hh
    exact laidOut_build hc

-- the product of the two words is zero
example : (WordConfig.mk [1, 1, 1, 1] 0x4000000000000000 (by decide)).check =
    .error (.tooLarge 4 0x4000000000000000) := rfl

end Heap

end StackVM
