import RapidTrader.TableCalls

namespace RapidTrader
open Lib Function Table
set_option autoImplicit true
set_option linter.unusedSectionVars false

/-- What the books and the markets do with a table. `assign` writes through the iterator that `find`
returns, and `eraseFound` erases what it points to, if it is not `end()`. -/
inductive TableOp (κ ν : Type) where
  | find (key : κ)
  | emplace (key : κ) (value : ν)
  | erase (key : κ)
  | eraseFound (key : κ)
  | assign (key : κ) (f : ν → ν)
  | forEach

/-- What a call tells its caller. -/
inductive TableResult (κ ν : Type) where
  | found (value : Option ν)
  | emplaced (value : ν) (isNew : Bool)
  | erased (count : Nat)
  | visited (entries : List (κ × ν))
  deriving DecidableEq

namespace TableOp
variable {κ ν : Type} [LE κ] [LT κ] [DecidableLT κ] [DecidableEq κ] [Std.IsLinearOrder κ]
  [Std.LawfulOrderLT κ]

def run (hash : κ → UInt64) (t : Table κ ν) :
    TableOp κ ν → TableExec (TableResult κ ν × Table κ ν)
  | find key => do
    return (.found ((← t.find hash key).map Prod.snd), t)
  | emplace key value => do
    let ((idx, isNew), t) ← t.emplace hash key value
    return (.emplaced (← t.nodeAt idx).2 isNew, t)
  | erase key => do
    let (count, t) ← t.erase hash key
    return (.erased count, t)
  | eraseFound key => do
    match ← t.find hash key with
    | some (idx, _) => return (.erased 1, (← t.eraseAt idx).2)
    | none => return (.erased 0, t)
  | assign key f => do
    match ← t.find hash key with
    | some (idx, value) => return (.found (some value), ← t.assign idx f)
    | none => return (.found none, t)
  | forEach => do
    return (.visited (← t.entries), t)

/-- What a map does. -/
def meant (m : SortedMap κ ν) : TableOp κ ν → TableResult κ ν × SortedMap κ ν
  | find key => (.found (m.find? key), m)
  | emplace key value =>
    (.emplaced ((m.find? key).getD value) (m.find? key).isNone, m.emplace key value)
  | erase key => (.erased (m.find? key).toList.length, m.erase key)
  | eraseFound key => (.erased (m.find? key).toList.length, m.erase key)
  | assign key f => (.found (m.find? key), m.modify key f)
  | forEach => (.visited m.entries, m)

/-- Calls one after the other, and what they tell. -/
def runAll (hash : κ → UInt64) : Table κ ν → List (TableOp κ ν) →
    TableExec (List (TableResult κ ν) × Table κ ν)
  | t, [] => return ([], t)
  | t, op :: ops => do
    let (result, t) ← op.run hash t
    let (results, t) ← runAll hash t ops
    return (result :: results, t)

def meantAll : SortedMap κ ν → List (TableOp κ ν) → List (TableResult κ ν) × SortedMap κ ν
  | m, [] => ([], m)
  | m, op :: ops =>
    let (result, m) := op.meant m
    let (results, m) := meantAll m ops
    (result :: results, m)

end TableOp

/-- Two callers are told the same, but for the order in which they visit the entries. -/
def TableResult.Agrees : TableResult κ ν → TableResult κ ν → Prop
  | visited entries, visited entries' => entries.Perm entries'
  | result, result' => result = result'

section Represents
variable {κ ν : Type} [LE κ] [LT κ] [DecidableLT κ] [DecidableEq κ] [Std.IsLinearOrder κ]
  [Std.LawfulOrderLT κ]
  {hash : κ → UInt64} {t : Table κ ν} {m : SortedMap κ ν}

/-- A table in the place of a map. -/
structure Represents (hash : κ → UInt64) (t : Table κ ν) (m : SortedMap κ ν) : Prop where
  sound : Sound hash t
  holds : ∀ key value, t.Holds key value ↔ m.find? key = some value
  count : t.mNumElements = m.size

theorem represents_new (hash : κ → UInt64) :
    Represents hash (new : Table κ ν) (.empty : SortedMap κ ν) where
  sound := .inl rfl
  holds key value := iff_of_false (not_holds_new key value) (by simp)
  count := rfl

namespace Represents

theorem not_holds (h : Represents hash t m) (hnone : m.find? key = none) (value : ν) :
    ¬ t.Holds key value := fun hh => by
  rw [(h.holds key value).1 hh] at hnone
  cases hnone

theorem find (h : Represents hash t m) (key : κ) :
    (∃ idx value, m.find? key = some value ∧ t.find hash key = .ok (some (idx, value)) ∧
      t.mKeyVals idx = some (key, value)) ∨
    (m.find? key = none ∧ t.find hash key = .ok none) := by
  cases hm : m.find? key with
  | some value =>
    obtain ⟨idx, hfind, hn⟩ := find_holds h.sound ((h.holds key value).2 hm)
    exact .inl ⟨idx, value, rfl, hfind, hn⟩
  | none => exact .inr ⟨rfl, find_not_holds h.sound (h.not_holds hm)⟩

theorem same (h : Represents hash t m) (hs : Same hash t t') : Represents hash t' m where
  sound := .inr hs.valid
  holds key value := (hs.holds key value).trans (h.holds key value)
  count := hs.count.trans h.count

theorem added (h : Represents hash t m) (hnone : m.find? key = none)
    (ha : Added hash t t' key value idx) : Represents hash t' (m.insert key value) where
  sound := .inr ha.valid
  holds key' value' := by
    rw [ha.holds, h.holds, SortedMap.find?_insert, Prod.mk.injEq]
    split
    · next heq =>
      subst heq
      rw [hnone]
      simp [eq_comm]
    · next hne => simp [hne]
  count := by
    rw [ha.count, h.count, SortedMap.size_insert, SortedMap.erase_of_find?_none hnone]

theorem removed (h : Represents hash t m) (hsome : m.find? key = some value)
    (hr : Removed hash t t' key) : Represents hash t' (m.erase key) where
  sound := .inr hr.valid
  holds key' value' := by
    rw [hr.holds, h.holds, SortedMap.find?_erase]
    split
    · next heq => simp [heq]
    · next hne => simp [hne]
  count := by
    have h₁ := hr.count
    have h₂ := SortedMap.size_erase hsome
    have h₃ := h.count
    omega

theorem assigned (h : Represents hash t m) (hsome : m.find? key = some value) (f : ν → ν)
    (ha : Assigned hash t t' key (f value)) : Represents hash t' (m.modify key f) where
  sound := .inr ha.valid
  holds key' value' := by
    rw [ha.holds, h.holds, SortedMap.find?_modify, Prod.mk.injEq]
    split
    · next heq =>
      subst heq
      rw [hsome]
      simp [eq_comm]
    · next hne => simp [hne]
  count := by
    rw [ha.count, h.count]
    refine SortedMap.size_congr fun key' => ?_
    rw [SortedMap.find?_modify]
    split
    · rw [Option.isSome_map]
    · rfl

/-- A loop over the table visits the entries of the map, each of them once. -/
theorem entries (h : Represents hash t m) : ∃ es, t.entries = .ok es ∧ es.Perm m.entries := by
  rcases h.sound with rfl | hv
  · have hm : m = .empty := SortedMap.eq_empty_iff.2 fun key => by
      cases hm : m.find? key with
      | none => rfl
      | some value => exact absurd ((h.holds key value).2 hm) (not_holds_new key value)
    rw [hm]
    exact ⟨[], entries_new, .nil⟩
  · refine ⟨_, entries_eq hv, (List.perm_ext_iff_of_nodup ?_ m.nodup_entries).2 ?_⟩
    · refine List.Nodup.filterMap (fun i j node hi hj => ?_) List.nodup_range
      exact hv.unique i j node.1 node.2 node.2 hi hj
    · rintro ⟨key, value⟩
      rw [List.mem_filterMap, ← SortedMap.find?_eq_some, ← h.holds]
      constructor
      · rintro ⟨j, _, hj⟩
        exact ⟨j, hj⟩
      · rintro ⟨j, hj⟩
        exact ⟨j, List.mem_range.2 (hv.node_lt hj), hj⟩

/-- A call on the table does what the map does, unless there are many entries and it throws. -/
theorem run (h : Represents hash t m) (op : TableOp κ ν) :
    Ends (Throws m.size) (fun r => r.1.Agrees (op.meant m).1 ∧
      Represents hash r.2 (op.meant m).2) (op.run hash t) := by
  cases op with
  | find key =>
    rw [TableOp.run, TableOp.meant]
    rcases h.find key with ⟨idx, value, hm, hfind, _⟩ | ⟨hm, hfind⟩
    · rw [hfind, hm]
      exact ⟨rfl, h⟩
    · rw [hfind, hm]
      exact ⟨rfl, h⟩
  | emplace key value =>
    rw [TableOp.run, TableOp.meant]
    rw [← h.count]
    refine (emplace_spec h.sound key value).bind ?_
    rintro ⟨⟨idx, isNew⟩, t'⟩ - hr
    rcases hr with ⟨rfl, hs, v, hn⟩ | ⟨rfl, hno, ha⟩
    · dsimp only at hs hn
      have hm := (h.holds key v).1 ((hs.holds key v).1 ⟨idx, hn⟩)
      dsimp only
      rw [nodeAt_eq hn, SortedMap.emplace, hm]
      exact ⟨rfl, h.same hs⟩
    · dsimp only at ha
      have hm : m.find? key = none := by
        cases hm : m.find? key with
        | none => rfl
        | some v => exact absurd ((h.holds key v).2 hm) (hno v)
      dsimp only
      rw [nodeAt_eq ha.there, SortedMap.emplace, hm]
      exact ⟨rfl, h.added hm ha⟩
  | erase key =>
    rw [TableOp.run, TableOp.meant]
    cases hm : m.find? key with
    | some value =>
      obtain ⟨t', hrun, hr⟩ := erase_holds h.sound ((h.holds key value).2 hm)
      rw [hrun]
      exact ⟨rfl, h.removed hm hr⟩
    | none =>
      rw [erase_not_holds h.sound (h.not_holds hm), SortedMap.erase_of_find?_none hm]
      exact ⟨rfl, h⟩
  | eraseFound key =>
    rw [TableOp.run, TableOp.meant]
    rcases h.find key with ⟨idx, value, hm, hfind, hn⟩ | ⟨hm, hfind⟩
    · have hv : Valid hash t := h.sound.resolve_left fun heq => by
        rw [heq] at hn
        cases hn
      obtain ⟨_, t', hrun, hr, _⟩ := eraseAt_removed hv hn
      rw [hfind, hm, ok_bind]
      dsimp only
      rw [hrun]
      exact ⟨rfl, h.removed hm hr⟩
    · rw [hfind, hm, SortedMap.erase_of_find?_none hm]
      exact ⟨rfl, h⟩
  | assign key f =>
    rw [TableOp.run, TableOp.meant]
    rcases h.find key with ⟨idx, value, hm, hfind, hn⟩ | ⟨hm, hfind⟩
    · obtain ⟨t', hrun, ha⟩ := assign_assigned h.sound hn f
      rw [hfind, hm, ok_bind]
      dsimp only
      rw [hrun]
      exact ⟨rfl, h.assigned hm f ha⟩
    · have hmod : m.modify key f = m := by
        apply SortedMap.ext_find?
        intro key'
        rw [SortedMap.find?_modify]
        split
        · next heq =>
          rw [heq, hm]
          rfl
        · rfl
      rw [hfind, hm, hmod]
      exact ⟨rfl, h⟩
  | forEach =>
    rw [TableOp.run, TableOp.meant]
    obtain ⟨es, hrun, hperm⟩ := h.entries
    rw [hrun]
    exact ⟨hperm, h⟩

end Represents

/-- Whatever the hash function is, a table is not told from a map: no call reads or writes what it
may not, no loop over its bytes goes on for ever, and none throws while there are less than 127
entries. -/
theorem table_refines_map (hash : κ → UInt64) (ops : List (TableOp κ ν)) :
    Ends (fun e => ∃ k, Throws (TableOp.meantAll .empty (ops.take k)).2.size e)
      (fun r => List.Forall₂ TableResult.Agrees r.1 (TableOp.meantAll .empty ops).1 ∧
        Represents hash r.2 (TableOp.meantAll .empty ops).2)
      (TableOp.runAll hash new ops) := by
  have hrun (t : Table κ ν) (m : SortedMap κ ν) (h : Represents hash t m) :
      Ends (fun e => ∃ k, Throws (TableOp.meantAll m (ops.take k)).2.size e)
        (fun r => List.Forall₂ TableResult.Agrees r.1 (TableOp.meantAll m ops).1 ∧
          Represents hash r.2 (TableOp.meantAll m ops).2) (TableOp.runAll hash t ops) := by
    induction ops generalizing t m with
    | nil => exact ⟨.nil, h⟩
    | cons op ops ih =>
      refine ((h.run op).mono (fun e he => ⟨0, he⟩) fun r _ hr => hr).bind ?_
      rintro ⟨result, t'⟩ - ⟨hagrees, h'⟩
      refine ((ih t' _ h').mono (fun e he => ?_) fun r _ hr => hr).bind ?_
      · obtain ⟨k, hk⟩ := he
        exact ⟨k + 1, hk⟩
      · rintro ⟨results, t''⟩ - ⟨hall, h''⟩
        exact ⟨.cons hagrees hall, h''⟩
  exact hrun new .empty (represents_new hash)

end Represents

/-- Calls on a table of orders, by their ids. -/
def orderIdOps : List (TableOp UInt64 Nat) :=
  [.emplace 7 0, .emplace 9 1, .emplace 7 2, .assign 9 (· + 3), .find 9, .eraseFound 7, .forEach]

theorem table_refines_map_orderIdOps :
    (TableOp.runAll hashInt new orderIdOps).toOption.map Prod.fst =
        some [.emplaced 0 true, .emplaced 1 true, .emplaced 0 false, .found (some 1),
          .found (some 4), .erased 1, .visited [(9, 4)]] ∧
      Ends (fun e => ∃ k, Throws (TableOp.meantAll .empty (orderIdOps.take k)).2.size e)
        (fun r => List.Forall₂ TableResult.Agrees r.1 (TableOp.meantAll .empty orderIdOps).1 ∧
          Represents hashInt r.2 (TableOp.meantAll .empty orderIdOps).2)
        (TableOp.runAll hashInt new orderIdOps) :=
  ⟨by decide +kernel, table_refines_map hashInt orderIdOps⟩

end RapidTrader
