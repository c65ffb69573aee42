import Mathlib

namespace Lib
set_option autoImplicit true
set_option linter.unusedSectionVars false

/-- An ordered map, kept as the list of its entries under strictly increasing keys.
Maps with the same lookups are equal, so equations between maps are proved by lookups. -/
@[ext] structure SortedMap (K V : Type) [LT K] where
  entries : List (K × V)
  sorted : entries.Pairwise (fun x y => x.1 < y.1)

namespace SortedMap

section Operations
variable [LT K] [DecidableLT K] [DecidableEq K]

instance [DecidableEq V] : DecidableEq (SortedMap K V) := fun m n =>
  decidable_of_iff (m.entries = n.entries) ⟨SortedMap.ext, congrArg entries⟩

def empty : SortedMap K V := ⟨[], .nil⟩

def isEmpty (m : SortedMap K V) : Bool := m.entries.isEmpty

def size (m : SortedMap K V) : Nat := m.entries.length

def find? (m : SortedMap K V) (k : K) : Option V :=
  (m.entries.find? (fun e => e.1 = k)).map Prod.snd

/-- The entry with the least key. -/
def begin? (m : SortedMap K V) : Option (K × V) := m.entries.head?

/-- The entry with the greatest key. -/
def rbegin? (m : SortedMap K V) : Option (K × V) := m.entries.getLast?

def erase (m : SortedMap K V) (k : K) : SortedMap K V :=
  ⟨m.entries.filter (fun e => e.1 ≠ k), m.sorted.filter _⟩

def modify (m : SortedMap K V) (k : K) (f : V → V) : SortedMap K V where
  entries := m.entries.map (fun e => (e.1, if e.1 = k then f e.2 else e.2))
  sorted := m.sorted.map _ (fun _ _ h => h)

end Operations

variable [LE K] [LT K] [DecidableLT K] [DecidableEq K] [Std.IsLinearOrder K] [Std.LawfulOrderLT K]

/-- Insert an entry, in place of the one under the same key if there is one. -/
def insert (m : SortedMap K V) (k : K) (v : V) : SortedMap K V where
  entries := m.entries.filter (fun e => e.1 < k) ++ (k, v) :: m.entries.filter (fun e => k < e.1)
  sorted := by
    have hs := m.sorted
    refine List.pairwise_append.2 ⟨hs.filter _, List.pairwise_cons.2 ⟨?_, hs.filter _⟩, ?_⟩
    · simp
    · grind

/-- Insert an entry only when its key is new, as `std::map::emplace` does. -/
def emplace (m : SortedMap K V) (k : K) (v : V) : SortedMap K V :=
  match m.find? k with
  | some _ => m
  | none => m.insert k v

theorem nodup_entries (m : SortedMap K V) : m.entries.Nodup :=
  m.sorted.imp (fun h he => by grind)

theorem nodup_keys (m : SortedMap K V) : (m.entries.map Prod.fst).Nodup :=
  List.pairwise_map.2 (m.sorted.imp (fun h he => by grind))

theorem mem_unique {m : SortedMap K V} (hv : (k, v) ∈ m.entries) (hw : (k, w) ∈ m.entries) :
    v = w := by
  obtain ⟨es, hs⟩ := m
  induction es with
  | nil => cases hv
  | cons e es ih =>
    have hs' := List.pairwise_cons.1 hs
    rcases List.mem_cons.1 hv with hv | hv <;> rcases List.mem_cons.1 hw with hw | hw
    · rw [← hv] at hw
      exact (congrArg Prod.snd hw).symm
    · have := hs'.1 _ hw
      grind
    · have := hs'.1 _ hv
      grind
    · exact ih hs'.2 hv hw

/-- Every lookup law below is read off from membership through this equivalence. -/
theorem find?_eq_some {m : SortedMap K V} : m.find? k = some v ↔ (k, v) ∈ m.entries := by
  constructor
  · intro h
    obtain ⟨e, he, hv⟩ := Option.map_eq_some_iff.1 h
    have hk : e.1 = k := by simpa using List.find?_some he
    rw [← hk, ← hv]
    exact List.mem_of_find?_eq_some he
  · intro h
    cases he : m.entries.find? (fun e => e.1 = k) with
    | none =>
      have := List.find?_eq_none.1 he _ h
      simp at this
    | some e =>
      have hk : e.1 = k := by simpa using List.find?_some he
      have hm := List.mem_of_find?_eq_some he
      rw [find?, he, Option.map_some, Option.some.injEq]
      exact mem_unique (m := m) (k := k) (hk ▸ hm) h

theorem find?_eq_of_forall {m : SortedMap K V} {o : Option V}
    (h : ∀ v, (k, v) ∈ m.entries ↔ o = some v) : m.find? k = o := by
  apply Option.ext
  intro v
  exact find?_eq_some.trans (h v)

/-- Maps are extensional. -/
theorem ext_find? {m n : SortedMap K V} (h : ∀ k, m.find? k = n.find? k) : m = n := by
  apply SortedMap.ext
  apply List.Perm.eq_of_pairwise _ m.sorted n.sorted
  · apply (List.perm_ext_iff_of_nodup m.nodup_entries n.nodup_entries).2
    rintro ⟨k, v⟩
    rw [← find?_eq_some, ← find?_eq_some, h]
  · intro x y _ _ hxy hyx
    grind

@[simp] theorem find?_empty (k : K) : (empty : SortedMap K V).find? k = none := rfl

@[simp] theorem find?_insert (m : SortedMap K V) (k k' : K) (v : V) :
    (m.insert k v).find? k' = if k' = k then some v else m.find? k' := by
  apply find?_eq_of_forall
  intro w
  simp only [insert, List.mem_append, List.mem_cons, List.mem_filter, Prod.mk.injEq,
    decide_eq_true_eq]
  split
  · subst k'
    grind
  · rw [find?_eq_some]
    grind

@[simp] theorem find?_erase (m : SortedMap K V) (k k' : K) :
    (m.erase k).find? k' = if k' = k then none else m.find? k' := by
  apply find?_eq_of_forall
  intro w
  simp only [erase, List.mem_filter, decide_eq_true_eq]
  split
  · grind
  · rw [find?_eq_some]
    grind

@[simp] theorem find?_modify (m : SortedMap K V) (k k' : K) (f : V → V) :
    (m.modify k f).find? k' = if k' = k then (m.find? k').map f else m.find? k' := by
  apply find?_eq_of_forall
  intro w
  simp only [modify, List.mem_map, Prod.mk.injEq, Prod.exists]
  split
  · rw [Option.map_eq_some_iff]
    simp only [find?_eq_some]
    grind
  · rw [find?_eq_some]
    grind

theorem find?_emplace (m : SortedMap K V) (k k' : K) (v : V) :
    (m.emplace k v).find? k' = if k' = k then some ((m.find? k).getD v) else m.find? k' := by
  cases h : m.find? k with
  | none => simp [emplace, h]
  | some w =>
    simp only [emplace, h, Option.getD_some]
    split
    · subst k'; exact h
    · rfl

theorem emplace_of_find?_none {m : SortedMap K V} (h : m.find? k = none) (v : V) :
    m.emplace k v = m.insert k v := by
  simp only [emplace, h]

theorem find?_modify_eq_none {m : SortedMap K V} {f : V → V} :
    (m.modify k f).find? k' = none ↔ m.find? k' = none := by
  rw [find?_modify]
  split
  · exact Option.map_eq_none_iff
  · rfl

theorem begin?_eq_some {m : SortedMap K V} (h : m.begin? = some (k, v)) :
    m.find? k = some v ∧ ∀ k' v', m.find? k' = some v' → k ≤ k' := by
  obtain ⟨es, hs⟩ := m
  cases es with
  | nil => cases h
  | cons e es =>
    simp only [begin?, List.head?_cons, Option.some.injEq] at h
    subst h
    refine ⟨find?_eq_some.2 List.mem_cons_self, ?_⟩
    intro k' v' hk
    rcases List.mem_cons.1 (find?_eq_some.1 hk) with he | he
    · grind
    · have := (List.pairwise_cons.1 hs).1 _ he
      grind

theorem rbegin?_eq_some {m : SortedMap K V} (h : m.rbegin? = some (k, v)) :
    m.find? k = some v ∧ ∀ k' v', m.find? k' = some v' → k' ≤ k := by
  obtain ⟨es, hs⟩ := m
  obtain ⟨init, rfl⟩ := List.getLast?_eq_some_iff.1 h
  refine ⟨find?_eq_some.2 (by simp), ?_⟩
  intro k' v' hk
  rcases List.mem_append.1 (find?_eq_some.1 hk) with he | he
  · have := (List.pairwise_append.1 hs).2.2 _ he (k, v) (by simp)
    grind
  · grind

theorem begin?_eq_none {m : SortedMap K V} : m.begin? = none ↔ m = empty := by
  rw [begin?, List.head?_eq_none_iff]
  exact ⟨fun h => SortedMap.ext h, fun h => by rw [h]; rfl⟩

theorem rbegin?_eq_none {m : SortedMap K V} : m.rbegin? = none ↔ m = empty := by
  rw [rbegin?, List.getLast?_eq_none_iff]
  exact ⟨fun h => SortedMap.ext h, fun h => by rw [h]; rfl⟩

theorem eq_empty_iff {m : SortedMap K V} : m = empty ↔ ∀ k, m.find? k = none :=
  ⟨fun h k => by rw [h, find?_empty], fun h => ext_find? fun k => by rw [h, find?_empty]⟩

theorem isEmpty_iff {m : SortedMap K V} : m.isEmpty = true ↔ m = empty := by
  rw [isEmpty, List.isEmpty_iff]
  exact ⟨fun h => SortedMap.ext h, fun h => by rw [h]; rfl⟩

/-- Take the entry of a key to the front, and leave the order of the others open. -/
theorem perm_erase {m : SortedMap K V} (h : m.find? k = some v) :
    m.entries.Perm ((k, v) :: (m.erase k).entries) := by
  have hm := find?_eq_some.1 h
  apply (List.perm_ext_iff_of_nodup m.nodup_entries _).2
  · rintro ⟨k', v'⟩
    have hu : (k, v') ∈ m.entries → v' = v := fun h' => mem_unique h' hm
    simp only [erase, List.mem_cons, List.mem_filter, decide_eq_true_eq, Prod.mk.injEq]
    grind
  · refine List.nodup_cons.2 ⟨?_, (m.erase k).nodup_entries⟩
    simp [erase]

theorem perm_insert (m : SortedMap K V) (k : K) (v : V) :
    (m.insert k v).entries.Perm ((k, v) :: (m.erase k).entries) := by
  have h := perm_erase (m := m.insert k v) (k := k) (v := v) (by simp)
  have he : (m.insert k v).erase k = m.erase k := by
    apply ext_find?
    intro k'
    simp only [find?_erase, find?_insert]
    split <;> rfl
  rwa [he] at h

/-- An entry's key is neither among the keys before it nor among those after it. -/
theorem keys_ne {m : SortedMap K V} (h : m.entries = xs ++ (k, v) :: ys) :
    (∀ e ∈ xs, e.1 ≠ k) ∧ ∀ e ∈ ys, e.1 ≠ k := by
  have hs := m.sorted
  rw [h] at hs
  obtain ⟨_, hys, hxs⟩ := List.pairwise_append.1 hs
  constructor
  · intro e he heq
    have := hxs e he (k, v) List.mem_cons_self
    grind
  · intro e he heq
    have := (List.pairwise_cons.1 hys).1 e he
    grind

theorem entries_erase {m : SortedMap K V} (h : m.entries = xs ++ (k, v) :: ys) :
    (m.erase k).entries = xs ++ ys := by
  obtain ⟨hxs, hys⟩ := keys_ne h
  have hk (es : List (K × V)) (he : ∀ e ∈ es, e.1 ≠ k) : es.filter (fun e => e.1 ≠ k) = es :=
    List.filter_eq_self.2 fun e hm => decide_eq_true (he e hm)
  change m.entries.filter (fun e => e.1 ≠ k) = _
  rw [h, List.filter_append, List.filter_cons_of_neg (by simp), hk xs hxs, hk ys hys]

theorem entries_modify {m : SortedMap K V} (f : V → V) (h : m.entries = xs ++ (k, v) :: ys) :
    (m.modify k f).entries = xs ++ (k, f v) :: ys := by
  obtain ⟨hxs, hys⟩ := keys_ne h
  have hk (es : List (K × V)) (he : ∀ e ∈ es, e.1 ≠ k) :
      es.map (fun e => (e.1, if e.1 = k then f e.2 else e.2)) = es := by
    refine (List.map_congr_left fun e hm => ?_).trans es.map_id
    rw [if_neg (he e hm)]
    rfl
  change m.entries.map (fun e => (e.1, if e.1 = k then f e.2 else e.2)) = _
  rw [h, List.map_append, List.map_cons, hk xs hxs, hk ys hys, if_pos rfl]

theorem size_erase {m : SortedMap K V} (h : m.find? k = some v) :
    (m.erase k).size + 1 = m.size := by
  rw [size, size, (perm_erase h).length_eq, List.length_cons]

theorem erase_of_find?_none {m : SortedMap K V} (h : m.find? k = none) : m.erase k = m := by
  apply ext_find?
  intro k'
  rw [find?_erase]
  split
  · subst k'
    exact h.symm
  · rfl

theorem size_insert (m : SortedMap K V) (k : K) (v : V) :
    (m.insert k v).size = (m.erase k).size + 1 := by
  rw [size, size, (perm_insert m k v).length_eq, List.length_cons]

/-- Maps with the same keys have the same size. -/
theorem size_congr {m : SortedMap K V} {m' : SortedMap K V'}
    (h : ∀ k, (m.find? k).isSome = (m'.find? k).isSome) : m.size = m'.size := by
  have hkey {W} (n : SortedMap K W) (k : K) :
      k ∈ n.entries.map Prod.fst ↔ (n.find? k).isSome = true := by
    rw [Option.isSome_iff_exists, List.mem_map]
    constructor
    · rintro ⟨⟨_, v⟩, hv, rfl⟩
      exact ⟨v, find?_eq_some.2 hv⟩
    · rintro ⟨v, hv⟩
      exact ⟨(k, v), find?_eq_some.1 hv, rfl⟩
  have hp : (m.entries.map Prod.fst).Perm (m'.entries.map Prod.fst) := by
    refine (List.perm_ext_iff_of_nodup m.nodup_keys m'.nodup_keys).2 fun k => ?_
    rw [hkey, hkey, h]
  have hl := hp.length_eq
  rw [List.length_map, List.length_map] at hl
  exact hl

theorem modify_eq_insert {m : SortedMap K V} (h : m.find? k = some v) (f : V → V) :
    m.modify k f = m.insert k (f v) := by
  apply ext_find?
  intro k'
  simp only [find?_modify, find?_insert]
  split
  · subst k'
    rw [h]
    rfl
  · rfl

section Total
variable [AddCommMonoid M]

/-- The sum of a weight over all entries. -/
def total (f : K → V → M) (m : SortedMap K V) : M := (m.entries.map (fun e => f e.1 e.2)).sum

theorem total_of_find? {m : SortedMap K V} (f : K → V → M) (h : m.find? k = some v) :
    m.total f = f k v + (m.erase k).total f := by
  have hp := (perm_erase h).map (fun e => f e.1 e.2)
  simpa only [total, List.map_cons, List.sum_cons] using hp.sum_eq

theorem total_insert (m : SortedMap K V) (f : K → V → M) (k : K) (v : V) :
    (m.insert k v).total f = f k v + (m.erase k).total f := by
  have hp := (perm_insert m k v).map (fun e => f e.1 e.2)
  simpa only [total, List.map_cons, List.sum_cons] using hp.sum_eq

theorem total_modify (m : SortedMap K V) {f : K → V → M} {g : V → V}
    (h : ∀ v, f k (g v) = f k v) : (m.modify k g).total f = m.total f := by
  unfold total modify
  rw [List.map_map]
  congr 1
  apply List.map_congr_left
  rintro ⟨k', v⟩ _
  simp only [Function.comp_apply]
  split
  · rename_i hk
    rw [hk, h]
  · rfl

theorem total_eq_zero {m : SortedMap K V} {f : K → V → M}
    (h : ∀ k v, m.find? k = some v → f k v = 0) : m.total f = 0 := by
  apply List.sum_eq_zero
  intro x hx
  obtain ⟨⟨k, v⟩, he, rfl⟩ := List.mem_map.1 hx
  exact h k v (find?_eq_some.2 he)

theorem total_le_size {m : SortedMap K V} {f : K → V → Nat} (h : ∀ k v, f k v ≤ 1) :
    m.total f ≤ m.size := by
  have hle := List.sum_le_card_nsmul (m.entries.map fun e => f e.1 e.2) 1 (by
    intro x hx
    obtain ⟨e, _, rfl⟩ := List.mem_map.1 hx
    exact h e.1 e.2)
  rwa [List.length_map, smul_eq_mul, Nat.mul_one] at hle

end Total

end SortedMap

end Lib
