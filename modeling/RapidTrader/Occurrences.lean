import RapidTrader.Mutations
import RapidTrader.Representation

namespace RapidTrader
open Lib Relation
set_option autoImplicit true

/-- How often a level lists an order. -/
def listings (i : UInt64) (_ : UInt64) (l : Level) : Nat := l.orders.count i

theorem count_flatMap_orders (m : SortedMap UInt64 Level) (i : UInt64) :
    (m.entries.flatMap (fun e => e.2.orders)).count i = m.total (listings i) := by
  rw [List.count_flatMap]
  rfl

/-- Only one map counts differently when one map is set. -/
theorem count_setLevels (b : MapOrderBook) (t : LevelMap) (m : SortedMap UInt64 Level)
    (i : UInt64) : (b.setLevels t m).listedIds.count i + (b.levels t).total (listings i) =
      b.listedIds.count i + m.total (listings i) := by
  have hcount (b : Book) : b.listedIds.count i =
      (b.levels .ask).total (listings i) + ((b.levels .bid).total (listings i) +
        ((b.levels .stopAsk).total (listings i) + ((b.levels .stopBid).total (listings i) +
          ((b.levels .trailingStopAsk).total (listings i) +
            (b.levels .trailingStopBid).total (listings i))))) := by
    simp only [Book.listedIds, List.flatMap_cons, List.flatMap_nil, List.append_nil,
      List.count_append, count_flatMap_orders]
  rw [hcount, hcount]
  cases t <;> simp only [levels_setLevels, reduceCtorEq, ↓reduceIte] <;> omega

theorem count_modifyLevel {b : MapOrderBook} (hl : b.level? it = some l) (f : Level → Level)
    (i : UInt64) : (b.modifyLevel it f).listedIds.count i + l.orders.count i =
      b.listedIds.count i + (f l).orders.count i := by
  have h := count_setLevels b it.levels ((b.levels it.levels).modify it.key f) i
  rw [SortedMap.modify_eq_insert hl, SortedMap.total_insert, SortedMap.total_of_find? _ hl] at h
  unfold MapOrderBook.modifyLevel
  rw [SortedMap.modify_eq_insert hl]
  simp only [listings] at h
  omega

theorem count_eraseAt {b : MapOrderBook} (hl : b.level? it = some l) (he : l.orders = [])
    (i : UInt64) :
    (b.setLevels it.levels ((b.levels it.levels).erase it.key)).listedIds.count i =
      b.listedIds.count i := by
  have h := count_setLevels b it.levels ((b.levels it.levels).erase it.key) i
  rw [SortedMap.total_of_find? _ hl] at h
  simp only [listings, he, List.count_nil] at h
  omega

theorem total_emplace_new (m : SortedMap UInt64 Level) (t : LevelMap) (key : UInt64)
    (symbolId : UInt32) (i : UInt64) :
    (m.emplace key (.new key t.side symbolId)).total (listings i) = m.total (listings i) := by
  cases hl : m.find? key with
  | some l => rw [SortedMap.emplace, hl]
  | none =>
    have he : m.erase key = m := by
      apply SortedMap.ext_find?
      intro k
      rw [SortedMap.find?_erase]
      split
      · rename_i hk
        rw [hk, hl]
      · rfl
    have hz : listings i key (.new key t.side symbolId) = 0 := rfl
    rw [SortedMap.emplace_of_find?_none hl, SortedMap.total_insert, he, hz, Nat.zero_add]

theorem count_emplaceAt (b : MapOrderBook) (t : LevelMap) (key i : UInt64) :
    (b.setLevels t ((b.levels t).emplace key (.new key t.side b.symbolId))).listedIds.count i =
      b.listedIds.count i := by
  have h := count_setLevels b t ((b.levels t).emplace key (.new key t.side b.symbolId)) i
  rw [total_emplace_new] at h
  exact Nat.add_right_cancel h

/-- An order is kept under its id. -/
def Book.Labelled (b : Book) : Prop := ∀ i w, b.orders.find? i = some w → w.order.id = i

theorem Book.Labelled.modify {b b' : Book} (h : b.Labelled) (ho : b'.orders = b.orders.modify k f)
    (hf : ∀ w, b.orders.find? k = some w → (f w).order.id = k) : b'.Labelled := by
  intro i w hw
  rw [ho, SortedMap.find?_modify] at hw
  split at hw
  · rename_i hik
    obtain ⟨w', hw', rfl⟩ := Option.map_eq_some_iff.1 hw
    rw [hik] at hw' ⊢
    exact hf w' hw'
  · exact h i w hw

theorem count_addOrder (l : Level) (o : Order) (i : UInt64) :
    (l.addOrder o).orders.count i = l.orders.count i + if i = o.id then 1 else 0 := by
  rw [Level.addOrder, List.count_append, List.count_singleton]
  grind

theorem count_insertOrder {b : MapOrderBook} (h : b.Labelled) (t : LevelMap) (key : UInt64)
    (o : Order) (i : UInt64) : (b.insertOrder t key o).listedIds.count i =
      b.listedIds.count i + if i = o.id then 1 else 0 := by
  unfold MapOrderBook.insertOrder
  dsimp only
  rw [orders_setLevels]
  have hid : ((((b.orders.emplace o.id ⟨o, ⟨t, key⟩⟩).find? o.id).map
      OrderWrapper.order).getD o).id = o.id := by
    rw [SortedMap.find?_emplace, if_pos rfl]
    cases hw : b.orders.find? o.id with
    | none => rfl
    | some w => exact h _ _ hw
  generalize (((b.orders.emplace o.id ⟨o, ⟨t, key⟩⟩).find? o.id).map OrderWrapper.order).getD o =
    stored at hid
  have hc := count_emplaceAt b t key i
  have hl := level?_emplaceAt b ⟨t, key⟩ ⟨t, key⟩ (.new key t.side b.symbolId)
  rw [if_pos rfl] at hl
  dsimp only at hl
  generalize b.setLevels t ((b.levels t).emplace key (.new key t.side b.symbolId)) = b₁ at hc hl
  have hm := count_modifyLevel (b := { b₁ with orders := b.orders.emplace o.id ⟨o, ⟨t, key⟩⟩ }) hl
    (·.addOrder stored) i
  have hb : ({ b₁ with orders := b.orders.emplace o.id ⟨o, ⟨t, key⟩⟩ } : MapOrderBook).listedIds =
    b₁.listedIds := rfl
  rw [hb, hc, count_addOrder, hid] at hm
  omega

/-- An id is in the lists of the levels more often than it rests. -/
structure Overlisted (i : UInt64) (b : Book) : Prop where
  id : b.Labelled
  more : (if b.orders.find? i = none then 0 else 1) < b.listedIds.count i

/-- To write entries, and levels without changing their lists, leaves the listings alone. -/
theorem Overlisted.congr (h : Overlisted i b) (hid : b'.Labelled)
    (hn : b'.orders.find? i = none ↔ b.orders.find? i = none)
    (hc : b'.listedIds.count i = b.listedIds.count i) : Overlisted i b' := by
  refine ⟨hid, ?_⟩
  simp only [hn, hc]
  exact h.more

theorem orders_insertOrder (b : MapOrderBook) (t : LevelMap) (key : UInt64) (o : Order) :
    (b.insertOrder t key o).orders = b.orders.emplace o.id ⟨o, ⟨t, key⟩⟩ := by
  unfold MapOrderBook.insertOrder
  rw [orders_modifyLevel]
  dsimp only
  rw [orders_setLevels]

theorem Book.Labelled.inserted {b : MapOrderBook} (h : b.Labelled) (t : LevelMap) (key : UInt64)
    (o : Order) : (b.insertOrder t key o).Labelled := by
  intro k w hw
  rw [orders_insertOrder, SortedMap.find?_emplace] at hw
  split at hw
  · rename_i hk
    cases hf : b.orders.find? o.id with
    | none =>
      rw [hf] at hw
      cases hw
      exact hk.symm
    | some w' =>
      rw [hf] at hw
      cases hw
      exact (h _ _ hf).trans hk.symm
  · exact h _ _ hw

theorem Overlisted.inserted {b : MapOrderBook} (h : Overlisted i b.toBook) (t : LevelMap)
    (key : UInt64) (o : Order) : Overlisted i (b.insertOrder t key o).toBook := by
  have hmore := h.more
  refine ⟨h.id.inserted t key o, ?_⟩
  rw [count_insertOrder h.id, orders_insertOrder, SortedMap.find?_emplace]
  by_cases hi : i = o.id
  · simp only [hi, ↓reduceIte, reduceCtorEq] at hmore ⊢
    split at hmore <;> omega
  · simp only [hi, ↓reduceIte, Nat.add_zero]
    exact hmore

theorem Overlisted.deleted {b : MapOrderBook} (h : Overlisted i b.toBook)
    (hd : b.deleteOrderWith k n = .ok b') : Overlisted i b'.toBook := by
  obtain ⟨w, hw, hd⟩ := bind_eq_ok.1 hd
  rw [orderAt_eq_ok] at hw
  have hid := h.id _ _ hw
  generalize hb₁ : (if n = true then b.emit (.orderDeleted w.order) else b) = b₁ at hd
  have hbook : b₁.toBook = b.toBook := by
    rw [← hb₁]
    split <;> rfl
  obtain ⟨l, hl, hd⟩ := bind_eq_ok.1 hd
  rw [levelAt_eq_ok] at hl
  obtain ⟨b₂, hb₂, hd⟩ := bind_eq_ok.1 hd
  cases hd
  have hm := count_modifyLevel hl (·.deleteOrder w.order) i
  have hl' : (b₁.modifyLevel w.levelIt (·.deleteOrder w.order)).level? w.levelIt =
      some (l.deleteOrder w.order) := by
    rw [level?_modifyLevel, if_pos rfl, hl]
    rfl
  -- an erased level was empty
  have hc : b₂.listedIds.count i =
      (b₁.modifyLevel w.levelIt (·.deleteOrder w.order)).listedIds.count i ∧
      b₂.orders = b₁.orders := by
    split at hb₂
    · rename_i he
      obtain ⟨_, ho, _⟩ := eraseLevel_frame hb₂
      refine ⟨?_, ho.trans (orders_modifyLevel _ _ _)⟩
      unfold MapOrderBook.eraseLevel at hb₂
      split at hb₂
      · cases hb₂
        rfl
      · split at hb₂
        · rename_i ht
          cases hb₂
          rw [ht]
          exact count_eraseAt hl' (by simpa [Level.empty] using he) i
        · cases hb₂
    · cases hb₂
      exact ⟨rfl, orders_modifyLevel _ _ _⟩
  have herase : (l.deleteOrder w.order).orders.count i + (if i = k then 1 else 0) ≥
      l.orders.count i := by
    rw [Level.deleteOrder, hid]
    by_cases hik : i = k
    · rw [if_pos hik, hik, List.count_erase_self]
      omega
    · rw [if_neg hik, List.count_erase_of_ne hik]
      omega
  have hmore := h.more
  rw [hbook] at hm
  refine ⟨fun j w' hw' => ?_, ?_⟩
  · change (b₂.orders.erase k).find? j = some w' at hw'
    rw [hc.2, hbook, SortedMap.find?_erase] at hw'
    split at hw'
    · cases hw'
    · exact h.id _ _ hw'
  · change (if (b₂.orders.erase k).find? i = none then 0 else 1) < b₂.listedIds.count i
    rw [hc.1, hc.2, hbook, SortedMap.find?_erase]
    by_cases hik : i = k
    · subst hik
      rw [hw] at hmore
      simp only [↓reduceIte, reduceCtorEq] at hmore herase ⊢
      omega
    · simp only [hik, ↓reduceIte] at herase ⊢
      omega

theorem relevelOrder_count {s s' : MapOrderBook × SortedMap UInt64 Level}
    (h : s.1.Labelled) (hs : MapOrderBook.relevelOrder t s x = .ok s') (i : UInt64) :
    s'.1.Labelled ∧ (s'.1.orders.find? i = none ↔ s.1.orders.find? i = none) ∧
      (∀ t', s'.1.levels t' = s.1.levels t') ∧
      s'.2.total (listings i) = s.2.total (listings i) + [x].count i := by
  obtain ⟨b, m⟩ := s
  obtain ⟨w, hw, hs⟩ := bind_eq_ok.1 hs
  rw [orderAt_eq_ok] at hw
  have hid : w.order.id = x := h _ _ hw
  cases hs
  refine ⟨?_, SortedMap.find?_modify_eq_none, fun t' => ?_, ?_⟩
  · exact h.modify (f := fun _ => ⟨b.calculateStopPrice w.order, ⟨t, b.newStopPrice w.order⟩⟩)
      rfl fun _ _ => hid
  · cases t' <;> rfl
  · change ((m.emplace _ _).modify _ _).total (listings i) = m.total (listings i) + [x].count i
    generalize hk : (b.calculateStopPrice w.order).stopPrice = key
    have hl : (m.emplace key (.new key t.side b.symbolId)).find? key =
        some ((m.find? key).getD (.new key t.side b.symbolId)) := by
      rw [SortedMap.find?_emplace, if_pos rfl]
    have hem := total_emplace_new m t key b.symbolId i
    rw [SortedMap.total_of_find? _ hl] at hem
    rw [SortedMap.modify_eq_insert hl, SortedMap.total_insert, ← hem]
    have hadd := count_addOrder ((m.find? key).getD (.new key t.side b.symbolId))
      (b.calculateStopPrice w.order) i
    have hx : (b.calculateStopPrice w.order).id = x := hid
    rw [hx] at hadd
    have hcount : [x].count i = if i = x then 1 else 0 := by
      rw [List.count_singleton]
      grind
    simp only [listings, hadd, hcount]
    omega

/-- The loop of an update function lists the orders it takes in turn in the new levels. -/
theorem relevelOrders_count {s s' : MapOrderBook × SortedMap UInt64 Level} {xs : List UInt64}
    (h : s.1.Labelled) (hf : xs.foldlM (MapOrderBook.relevelOrder t) s = .ok s') (i : UInt64) :
    s'.1.Labelled ∧ (s'.1.orders.find? i = none ↔ s.1.orders.find? i = none) ∧
      (∀ t', s'.1.levels t' = s.1.levels t') ∧
      s'.2.total (listings i) = s.2.total (listings i) + xs.count i := by
  induction xs generalizing s with
  | nil =>
    cases hf
    exact ⟨h, .rfl, fun _ => rfl, rfl⟩
  | cons x xs ih =>
    rw [List.foldlM_cons] at hf
    obtain ⟨s₁, hs₁, hf⟩ := bind_eq_ok.1 hf
    obtain ⟨h₁, hn₁, hl₁, hc₁⟩ := relevelOrder_count h hs₁ i
    obtain ⟨h', hn', hl', hc'⟩ := ih h₁ hf
    refine ⟨h', hn'.trans hn₁, fun t' => (hl' t').trans (hl₁ t'), ?_⟩
    rw [hc', hc₁, Nat.add_assoc, ← List.count_append]
    rfl

theorem Overlisted.releveled {b : MapOrderBook} (h : Overlisted i b.toBook)
    (hr : b.relevel t = .ok b') : Overlisted i b'.toBook := by
  obtain ⟨⟨b₁, m⟩, hf, hr⟩ := bind_eq_ok.1 hr
  cases hr
  obtain ⟨h₁, hn, hl, hc⟩ := relevelOrders_count (s := (b, .empty)) h.id hf i
  have hset := count_setLevels b₁ t m i
  have hb : b₁.listedIds = b.listedIds := by
    simp only [Book.listedIds, hl]
  have hz : SortedMap.total (listings i) .empty = 0 := rfl
  rw [hl, hb, hc, count_flatMap_orders, hz] at hset
  refine h.congr (fun k w hk => ?_) ?_ ?_
  · rw [orders_setLevels] at hk
    exact h₁ _ _ hk
  · rw [orders_setLevels]
    exact hn
  · dsimp only at hset ⊢
    omega

/-- No write brings the listings and the entries of an id into line again. -/
theorem Mutation.overlisted (hm : Mutation b b') (h : Overlisted i b.toBook) :
    Overlisted i b'.toBook := by
  cases hm with
  | noted _ => exact h
  | priced => exact h.congr h.id .rfl rfl
  | @reduced _ it amount =>
    have hs := count_setLevels b it.levels
      ((b.levels it.levels).modify it.key (·.reduceVolume amount)) i
    have hm : ((b.levels it.levels).modify it.key (·.reduceVolume amount)).total (listings i) =
        (b.levels it.levels).total (listings i) := SortedMap.total_modify _ fun _ => rfl
    rw [hm] at hs
    refine h.congr (fun k w hk => ?_) ?_ (Nat.add_right_cancel hs)
    · rw [orders_modifyLevel] at hk
      exact h.id _ _ hk
    · rw [orders_modifyLevel]
  | @written _ _ w o hw ho =>
    refine h.congr ?_ SortedMap.find?_modify_eq_none rfl
    exact h.id.modify (f := fun w => { w with order := o }) rfl fun _ _ => ho.trans (h.id _ _ hw)
  | deleted hd => exact h.deleted hd
  | inserted => exact h.inserted _ _ _
  | @pointed _ _ it =>
    refine h.congr ?_ SortedMap.find?_modify_eq_none rfl
    exact h.id.modify (f := fun w => { w with levelIt := it }) rfl fun w hw => h.id _ w hw
  | releveled hr => exact h.releveled hr

/-- A sound book lists every resting id once, and no other id. -/
theorem Linked.count_listedIds (h : Linked b) (i : UInt64) :
    b.listedIds.count i = if b.orders.find? i = none then 0 else 1 := by
  split
  · rename_i hi
    rw [List.count_eq_zero]
    intro hm
    exact h.mem_listedIds.1 hm hi
  · rename_i hi
    exact List.count_eq_one_of_mem h.nodup_listedIds (h.mem_listedIds.2 hi)

/-- An order that is inserted under the id of a resting order is listed beside it. -/
theorem Linked.overlisted {b : MapOrderBook} (h : Linked b.toBook)
    (hw : b.orders.find? o.id = some w) (t : LevelMap) (key : UInt64) :
    Overlisted o.id (b.insertOrder t key o).toBook := by
  have hid : b.Labelled := fun _ _ => h.id
  refine ⟨hid.inserted t key o, ?_⟩
  rw [count_insertOrder hid, h.count_listedIds, hw, orders_insertOrder, SortedMap.find?_emplace]
  simp only [↓reduceIte, reduceCtorEq]
  omega

end RapidTrader
