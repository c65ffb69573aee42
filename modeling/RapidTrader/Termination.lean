import RapidTrader.Activation

namespace RapidTrader
open Lib
set_option autoImplicit true

/-! ### Matching ends -/

/-- The number of orders that rest in a map. -/
def Book.restingCount (b : Book) (t : LevelMap) : Nat :=
  b.orders.total fun _ w => if w.levelIt.levels = t then 1 else 0

theorem restingCount_le_size (b : Book) (t : LevelMap) : b.restingCount t ≤ b.orders.size :=
  SortedMap.total_le_size fun _ w => by split <;> omega

/-- A turn fills the incoming order or takes an order off the other side. -/
theorem Traded.restingCount (h : Linked b.toBook) (ht : Traded b o key l i w b' o') :
    0 < b.restingCount (Book.oppositeMap o.side) ∧ (o'.isFilled = true ∨
      b'.restingCount (Book.oppositeMap o.side) < b.restingCount (Book.oppositeMap o.side)) := by
  have hc := ht.changed
  have hit : w.levelIt.levels = Book.oppositeMap o.side := by
    obtain ⟨i', w', hfr, hw, hit, _⟩ := h.front (bestOpposite_eq_some ht.best).1
    rw [ht.front] at hfr
    cases hfr
    rw [hc.order] at hw
    cases hw
    rw [hit]
  have hcount : b.restingCount (Book.oppositeMap o.side) = 1 + (b.orders.erase i).total
      (fun _ w => if w.levelIt.levels = Book.oppositeMap o.side then 1 else 0) := by
    rw [Book.restingCount, SortedMap.total_of_find? _ hc.order, if_pos hit]
  refine ⟨by omega, ?_⟩
  cases hf : (w.order.execute w.order.price (matched o w.order)).isFilled with
  | true =>
    right
    have ho := hc.orders
    rw [show min o.openQuantity w.order.openQuantity = matched o w.order from rfl, hf,
      if_pos rfl] at ho
    rw [hcount, Book.restingCount, ho]
    omega
  | false =>
    left
    have hne : w.order.openQuantity - matched o w.order ≠ 0 := of_decide_eq_false hf
    have hm : matched o w.order = o.openQuantity := by
      rw [matched, min_uint64] at hne ⊢
      split
      · rfl
      · rename_i hle
        rw [if_neg hle] at hne
        grind
    rw [ht.order]
    apply decide_eq_true
    change o.openQuantity - matched o w.order = 0
    rw [hm]
    grind

section Match
variable {b : MapOrderBook} {o : Order}

/-- The loops of `match` end after at most as many turns as orders rest on the other side. -/
theorem matchLoop_returns (h : Linked b.toBook)
    (hn : b.restingCount (Book.oppositeMap o.side) < fuel) :
    ∃ s, MapOrderBook.matchLoop fuel (b, o) = .ok s := by
  have hturn (s : MapOrderBook × Order) (hs : Linked s.1.toBook ∧ s.2.side = o.side)
      (hct : s.1.canTrade s.2 = true) : ∃ s', s.1.matchFront s.2 = .ok s' ∧
        (Linked s'.1.toBook ∧ s'.2.side = o.side) ∧
        (if s'.2.isFilled then 0 else s'.1.restingCount (Book.oppositeMap o.side)) <
          if s.2.isFilled then 0 else s.1.restingCount (Book.oppositeMap o.side) := by
    obtain ⟨hl, hside⟩ := hs
    obtain ⟨⟨b', o'⟩, hm⟩ := hl.matchFront_ok hct
    obtain ⟨key, l, i, w, ht⟩ := hl.traded hm
    obtain ⟨hpos, hless⟩ := ht.restingCount hl
    rw [hside] at hpos hless
    have hst := matchFront_sameTerms s.1 hm
    refine ⟨(b', o'), hm, ⟨hl.changed (.execute _ _ _) ht.changed, hst.side.trans hside⟩, ?_⟩
    rw [(canTrade_eq_true hct).1, if_neg Bool.false_ne_true]
    dsimp only
    rcases hless with hfill | hless
    · rw [hfill, if_pos rfl]
      exact hpos
    · split
      · exact hpos
      · exact hless
  obtain ⟨s, hs, _⟩ := whileLoop_ends (n := fuel) (s := (b, o))
    (I := fun s => Linked s.1.toBook ∧ s.2.side = o.side)
    (fun s : MapOrderBook × Order =>
      if s.2.isFilled then 0 else s.1.restingCount (Book.oppositeMap o.side))
    hturn ⟨h, rfl⟩ (by dsimp only; split <;> omega)
  exact ⟨s, hs⟩

theorem matchOrder_returns_of_not_fok (h : Linked b.toBook) (hk : o.timeInForce ≠ .fok)
    (hn : b.restingCount (Book.oppositeMap o.side) < fuel) :
    ∃ s, b.matchOrder fuel o = .ok s := by
  rw [matchOrder_not_fok (decide_eq_false hk)]
  have hl : Linked (b.note (.matching o b.toBook)).toBook := h
  exact matchLoop_returns hl hn

theorem fill_returns (h : Linked b.toBook) (hk : o.timeInForce ≠ .fok)
    (hn : b.orders.size < fuel) : ∃ b', b.fill fuel o = .ok b' := by
  have hle := restingCount_le_size b.toBook (Book.oppositeMap o.side)
  unfold MapOrderBook.fill
  split
  · have hk' : (o.setPrice (if o.isAsk then 0 else maxPrice)).timeInForce ≠ .fok := hk
    obtain ⟨s, hs⟩ := matchOrder_returns_of_not_fok h hk' (Nat.lt_of_le_of_lt hle hn)
    unfold MapOrderBook.addMarketOrder
    dsimp only
    rw [hs, ok_bind]
    exact ⟨_, rfl⟩
  · obtain ⟨s, hs⟩ := matchOrder_returns_of_not_fok h hk (Nat.lt_of_le_of_lt hle hn)
    unfold MapOrderBook.addLimitOrder
    rw [hs, ok_bind]
    dsimp only
    split <;> exact ⟨_, rfl⟩

end Match

/-! ### Cascades end -/

instance (o : Order) : Decidable o.IsStopType := inferInstanceAs (Decidable (_ ∨ _ ∨ _))

/-- The ids of the stop and trailing orders that rest. -/
def Book.stopIds (b : Book) : List UInt64 :=
  (b.orders.entries.filter fun e => e.2.order.IsStopType).map Prod.fst

theorem mem_stopIds {b : Book} :
    i ∈ b.stopIds ↔ ∃ w, b.orders.find? i = some w ∧ w.order.IsStopType := by
  simp only [Book.stopIds, List.mem_map, List.mem_filter, decide_eq_true_eq,
    SortedMap.find?_eq_some]
  constructor
  · rintro ⟨⟨k, w⟩, ⟨hw, hs⟩, rfl⟩
    exact ⟨w, hw, hs⟩
  · rintro ⟨w, hw, hs⟩
    exact ⟨(i, w), ⟨hw, hs⟩, rfl⟩

theorem nodup_stopIds (b : Book) : b.stopIds.Nodup := by
  refine (List.Pairwise.map _ (fun _ _ h => ?_) (b.orders.sorted.filter _))
  exact fun he => UInt64.lt_irrefl _ (he ▸ h)

/-- A part of a cascade that has activated `os`. -/
structure Cascaded (b : MapOrderBook) (os : List Order) (b' : MapOrderBook) : Prop where
  linked : Linked b'.toBook
  ids : b.stopIds.Perm (b'.stopIds ++ os.map Order.id)
  timeInForce : b'.orders.find? i = some w' → w'.order.IsStopType → ∃ w,
    b.orders.find? i = some w ∧ w.order.IsStopType ∧ w'.order.timeInForce = w.order.timeInForce
  size : b'.orders.size ≤ b.orders.size
  activations : activations b'.trace = activations b.trace ++ os

namespace Cascaded

theorem refl (h : Linked b.toBook) : Cascaded b [] b :=
  ⟨h, by rw [List.map_nil, List.append_nil], fun hw hs => ⟨_, hw, hs, rfl⟩, Nat.le_refl _,
    (List.append_nil _).symm⟩

theorem trans (h : Cascaded b os b') (h' : Cascaded b' os' b'') :
    Cascaded b (os ++ os') b'' := by
  refine ⟨h'.linked, ?_, fun hw hs => ?_, h'.size.trans h.size, ?_⟩
  · have hp := h.ids.trans (h'.ids.append_right _)
    refine hp.trans ?_
    rw [List.map_append, List.append_assoc]
    exact List.perm_append_comm.append_left _
  · obtain ⟨w₁, hw₁, hs₁, ht₁⟩ := h'.timeInForce hw hs
    obtain ⟨w₀, hw₀, hs₀, ht₀⟩ := h.timeInForce hw₁ hs₁
    exact ⟨w₀, hw₀, hs₀, ht₁.trans ht₀⟩
  · rw [h'.activations, h.activations, List.append_assoc]

/-- Each activation takes a stop order away for good. -/
theorem length (h : Cascaded b os b') : b.stopIds.length = b'.stopIds.length + os.length := by
  rw [h.ids.length_eq, List.length_append, List.length_map]

end Cascaded

theorem Order.IsStopType.ne_limit {o : Order} (h : o.IsStopType) : o.type ≠ .limit :=
  fun hl => Order.not_isStopType hl h

theorem Popped.cascaded (hw : b.orders.find? i = some w) (hid : w.order.id = i)
    (hs : w.order.IsStopType) (hp : Popped t b key l i w b') : Cascaded b [w.order] b' := by
  have hstop {k : UInt64} {w' : OrderWrapper} (h : w'.order.IsStopType) :
      b'.orders.find? k = some w' ↔ k ≠ i ∧ b.orders.find? k = some w' := hp.stops h.ne_limit
  have hmem (k : UInt64) : k ∈ b'.stopIds ↔ k ≠ i ∧ k ∈ b.stopIds := by
    rw [mem_stopIds, mem_stopIds]
    constructor
    · rintro ⟨w', hw', hs'⟩
      obtain ⟨hne, hw'⟩ := (hstop hs').1 hw'
      exact ⟨hne, w', hw', hs'⟩
    · rintro ⟨hne, w', hw', hs'⟩
      exact ⟨w', (hstop hs').2 ⟨hne, hw'⟩, hs'⟩
  refine ⟨hp.linked, ?_, fun {k w'} hw' hs' => ?_, hp.size, hp.activations⟩
  · rw [List.map_singleton, hid]
    refine (List.perm_ext_iff_of_nodup (nodup_stopIds _) ?_).2 fun k => ?_
    · refine List.nodup_append.2 ⟨nodup_stopIds _, List.nodup_singleton _, fun x hx y hy he => ?_⟩
      rw [List.mem_singleton] at hy
      exact ((hmem x).1 hx).1 (he.trans hy)
    · rw [List.mem_append, List.mem_singleton, hmem]
      constructor
      · intro hk
        by_cases hki : k = i
        · exact .inr hki
        · exact .inl ⟨hki, hk⟩
      · rintro (⟨_, hk⟩ | rfl)
        · exact hk
        · exact mem_stopIds.2 ⟨w, hw, hs⟩
  · exact ⟨w', ((hstop hs').1 hw').2, hs', rfl⟩

/-- An update moves orders and does nothing else. -/
theorem Updated.cascaded (hu : Updated b side b') : Cascaded b [] (b'.remember side) := by
  have hkeys (k : UInt64) :
      ((b'.remember side).orders.find? k).isSome = (b.orders.find? k).isSome := by
    rw [orders_remember, hu.orders, Option.isSome_map]
  have hstop (w : OrderWrapper) : (if b.relevels side = true ∧ w.levelIt.levels = trailingMap side
      then b.moved (trailingMap side) w else w).order.IsStopType ↔ w.order.IsStopType := by
    split <;> exact Iff.rfl
  refine ⟨hu.linked.remember side, ?_, fun {k w'} hw hs => ?_, ?_, ?_⟩
  · rw [List.map_nil, List.append_nil]
    refine (List.perm_ext_iff_of_nodup (nodup_stopIds _) (nodup_stopIds _)).2 fun k => ?_
    simp only [mem_stopIds, orders_remember, hu.orders, Option.map_eq_some_iff]
    constructor
    · rintro ⟨w, hw, hs⟩
      exact ⟨_, ⟨w, hw, rfl⟩, (hstop w).2 hs⟩
    · rintro ⟨_, ⟨w, hw, rfl⟩, hs⟩
      exact ⟨w, hw, (hstop w).1 hs⟩
  · rw [orders_remember, hu.orders] at hw
    obtain ⟨w, hw₀, rfl⟩ := Option.map_eq_some_iff.1 hw
    refine ⟨w, hw₀, (hstop w).1 hs, ?_⟩
    split <;> rfl
  · exact (SortedMap.size_congr hkeys).le
  · rw [List.append_nil, trace_remember]
    exact hu.plainly.activations

/-- A book in which no fill-or-kill order waits. -/
structure Ready (b : Book) : Prop where
  linked : Linked b
  notFok : b.orders.find? i = some w → w.order.IsStopType → w.order.timeInForce ≠ .fok

theorem Ready.cascaded (h : Ready b.toBook) (hc : Cascaded b os b') : Ready b'.toBook := by
  refine ⟨hc.linked, fun hw hs => ?_⟩
  obtain ⟨w, hw₀, hs₀, ht⟩ := hc.timeInForce hw hs
  rw [ht]
  exact h.notFok hw₀ hs₀

theorem length_stopIds_le (b : Book) : b.stopIds.length ≤ b.orders.size := by
  rw [Book.stopIds, List.length_map]
  exact List.length_filter_le _ _

section Cascade
variable {b : MapOrderBook} {t t' : LevelMap}

theorem activateFront_returns (h : Ready b.toBook) (ht : t.IsStop) (hn : b.orders.size < fuel)
    (hc : b.canActivate t p = true) :
    ∃ b' o, b.activateFront fuel t = .ok b' ∧ Cascaded b [o] b' := by
  have hret : ∃ b', b.activateFront fuel t = .ok b' := by
    unfold Book.canActivate at hc
    cases hfs : b.firstStop t with
    | none =>
      rw [hfs] at hc
      cases hc
    | some e =>
      obtain ⟨key, l⟩ := e
      obtain ⟨i, w, hfr, hw, hit, hid, _⟩ := h.linked.front (firstStop_eq_some hfs)
      have hs : w.order.IsStopType :=
        Order.isStopType_of_home? (h.linked.home hw) (by rw [hit]; exact ht)
      obtain ⟨b₁, hd⟩ :=
        deleteOrderWith_ok hw (hit ▸ firstStop_eq_some hfs) (h.linked.home hw) false
      obtain ⟨w', l', hdel⟩ := deleteOrderWith_deleted hd
      have hl₁ : Linked b₁.toBook := h.linked.deleted hdel
      have hk : w.order.activate.timeInForce ≠ .fok := h.notFok hw hs
      have hsize : b₁.orders.size < fuel := by
        have hsz := SortedMap.size_erase hdel.order
        rw [hdel.orders]
        omega
      obtain ⟨b₂, hb₂⟩ := fill_returns (b := b₁.emit (.orderUpdated w.order.activate)) hl₁ hk hsize
      unfold MapOrderBook.activateFront
      rw [hfs]
      dsimp only
      rw [hfr]
      dsimp only
      rw [orderAt_eq_ok.2 hw, ok_bind, activateStopOrder_eq, hid, hd, ok_bind, hb₂]
      exact ⟨_, rfl⟩
  obtain ⟨b', hb'⟩ := hret
  obtain ⟨key, l, i, w, b₁, b₂, ha⟩ := activateFront_activated h.linked hb'
  have hw := ha.deleted.order
  have hs : w.order.IsStopType :=
    Order.isStopType_of_home? (h.linked.home hw) (by rw [ha.levelIt]; exact ht)
  exact ⟨b', w.order, hb', (ha.popped h.linked ht).cascaded hw (h.linked.id hw) hs⟩

/-- An activation loop ends after at most as many turns as stop orders rest. -/
theorem activateLevels_returns (h : Ready b.toBook) (ht : t.IsStop) (hn : b.orders.size < fuel)
    (p : UInt64) (f : Bool) : ∃ b' os, MapOrderBook.activateLevels fuel t p (b, f) =
      .ok (b', f || !os.isEmpty) ∧ Cascaded b os b' := by
  have hturn (s : MapOrderBook × Bool)
      (hs : ∃ os, Cascaded b os s.1 ∧ s.2 = (f || !os.isEmpty))
      (hc : s.1.canActivate t p = true) :
      ∃ s', (do return (← s.1.activateFront fuel t, true)) = Except.ok s' ∧
        (∃ os, Cascaded b os s'.1 ∧ s'.2 = (f || !os.isEmpty)) ∧
        s'.1.stopIds.length < s.1.stopIds.length := by
    obtain ⟨os, hs, _⟩ := hs
    have hsize : s.1.orders.size < fuel := Nat.lt_of_le_of_lt hs.size hn
    obtain ⟨b', o, hb', ho⟩ := activateFront_returns (h.cascaded hs) ht hsize hc
    have hlen := ho.length
    refine ⟨(b', true), ?_, ⟨os ++ [o], hs.trans ho, by simp⟩, ?_⟩
    · rw [hb']
      rfl
    · dsimp only
      rw [hlen]
      exact Nat.lt_succ_self _
  have hk := length_stopIds_le b.toBook
  obtain ⟨⟨b', f'⟩, hs, ⟨os, hc, hf⟩, _⟩ := whileLoop_ends (n := fuel) (s := (b, f))
    (fun s : MapOrderBook × Bool => s.1.stopIds.length) hturn
    ⟨[], .refl h.linked, (Bool.or_false f).symm⟩ (by dsimp only; omega)
  dsimp only at hf
  rw [hf] at hs
  exact ⟨b', os, hs, hc⟩

/-- The two loops of a side. -/
theorem activateLevels_twice (h : Ready b.toBook) (ht : t.IsStop) (ht' : t'.IsStop)
    (hn : b.orders.size < fuel) (p : UInt64) (p' : MapOrderBook → UInt64) :
    ∃ b' os, (MapOrderBook.activateLevels fuel t p (b, false) >>= fun s =>
      MapOrderBook.activateLevels fuel t' (p' s.1) s) = .ok (b', !os.isEmpty) ∧
        Cascaded b os b' := by
  obtain ⟨b₁, os₁, h₁, hc₁⟩ := activateLevels_returns h ht hn p false
  have hn₁ := Nat.lt_of_le_of_lt hc₁.size hn
  obtain ⟨b₂, os₂, h₂, hc₂⟩ := activateLevels_returns (h.cascaded hc₁) ht' hn₁ (p' b₁)
    (false || !os₁.isEmpty)
  refine ⟨b₂, os₁ ++ os₂, ?_, hc₁.trans hc₂⟩
  rw [h₁, ok_bind]
  dsimp only
  rw [h₂]
  cases os₁ <;> rfl

theorem updateStopOrders_returns (h : Ready b.toBook) (side : OrderSide) :
    ∃ b', b.updateStopOrders side = .ok b' ∧ Cascaded b [] b' := by
  obtain ⟨b', hb', hu⟩ := updateStopOrders_updated h.linked side
  exact ⟨_, hb', hu.cascaded⟩

theorem activatePass_returns (h : Ready b.toBook) (hn : b.orders.size < fuel) :
    ∃ b' os, b.activatePass fuel = .ok (b', !os.isEmpty) ∧ Cascaded b os b' := by
  have hstop (t : LevelMap) (ht : t ≠ .ask ∧ t ≠ .bid) : t.IsStop := ht
  obtain ⟨b₁, os₁, h₁, hc₁⟩ := activateLevels_twice h (hstop .stopBid (by decide))
    (hstop .trailingStopBid (by decide)) hn b.lastTradedPriceAsk fun b => b.lastTradedPriceAsk
  have hr₁ := h.cascaded hc₁
  obtain ⟨b₂, h₂, hc₂⟩ := updateStopOrders_returns hr₁ .ask
  have hr₂ := hr₁.cascaded hc₂
  have hn₂ := Nat.lt_of_le_of_lt (hc₂.size.trans hc₁.size) hn
  obtain ⟨b₃, os₃, h₃, hc₃⟩ := activateLevels_twice hr₂ (hstop .stopAsk (by decide))
    (hstop .trailingStopAsk (by decide)) hn₂ b₂.lastTradedPriceBid fun b => b.lastTradedPriceBid
  have hr₃ := hr₂.cascaded hc₃
  obtain ⟨b₄, h₄, hc₄⟩ := updateStopOrders_returns hr₃ .bid
  refine ⟨b₄, os₁ ++ os₃, ?_, ?_⟩
  · change (MapOrderBook.activateBidStopOrders fuel b >>= fun s => s.1.updateStopOrders .ask >>=
      fun b₂ => MapOrderBook.activateAskStopOrders fuel b₂ >>= fun s' =>
        s'.1.updateStopOrders .bid >>= fun b₄ => .ok (b₄, s'.2 || s.2)) = _
    have h₁' : MapOrderBook.activateBidStopOrders fuel b = .ok (b₁, !os₁.isEmpty) := h₁
    have h₃' : MapOrderBook.activateAskStopOrders fuel b₂ = .ok (b₃, !os₃.isEmpty) := h₃
    rw [h₁', ok_bind, h₂, ok_bind, h₃', ok_bind, h₄, ok_bind]
    cases os₁ <;> cases os₃ <;> rfl
  · have hc := ((hc₁.trans hc₂).trans hc₃).trans hc₄
    rw [List.append_nil, List.append_nil] at hc
    exact hc

/-- The outer loop takes a turn more than it activates stop orders. -/
theorem cascade_ends (h : Ready b.toBook) (hn : b.orders.size < fuel)
    (hm : b.stopIds.length + 1 < m) : ∃ b' os,
      whileLoop Prod.snd (fun s => MapOrderBook.activatePass fuel s.1) Prod.fst m (b, true) =
        .ok (b', false) ∧ Cascaded b os b' := by
  have hturn (s : MapOrderBook × Bool) (hs : ∃ os, Cascaded b os s.1) (hf : s.2 = true) :
      ∃ s', MapOrderBook.activatePass fuel s.1 = .ok s' ∧ (∃ os, Cascaded b os s'.1) ∧
        (if s'.2 then s'.1.stopIds.length + 1 else 0) <
          if s.2 then s.1.stopIds.length + 1 else 0 := by
    obtain ⟨os, hs⟩ := hs
    have hsize : s.1.orders.size < fuel := Nat.lt_of_le_of_lt hs.size hn
    obtain ⟨b', os', hb', hc⟩ := activatePass_returns (h.cascaded hs) hsize
    refine ⟨_, hb', ⟨_, hs.trans hc⟩, ?_⟩
    have hlen := hc.length
    rw [hf, if_pos rfl]
    dsimp only
    cases os' with
    | nil => exact Nat.succ_pos _
    | cons o os' =>
      rw [List.length_cons] at hlen
      change b'.stopIds.length + 1 < _
      omega
  obtain ⟨⟨b', f⟩, hs, ⟨os, hc⟩, hf⟩ := whileLoop_ends (n := m) (s := (b, true))
    (fun s : MapOrderBook × Bool => if s.2 then s.1.stopIds.length + 1 else 0) hturn
    ⟨[], .refl h.linked⟩ hm
  cases hf
  exact ⟨b', os, hs, hc⟩

theorem activateStopOrders_returns (h : Ready b.toBook) (hn : b.orders.size + 1 < fuel) :
    ∃ b' os, b.activateStopOrders fuel = .ok b' ∧ Cascaded b os b' := by
  have hk := length_stopIds_le b.toBook
  have hn' : b.orders.size < fuel := by omega
  obtain ⟨b', os, hs, hc⟩ := cascade_ends (m := fuel) h hn' (by omega)
  refine ⟨b', os, ?_, hc⟩
  unfold MapOrderBook.activateStopOrders
  rw [hs]
  rfl

end Cascade

/-! ### Operations end -/

theorem Ready.deleted {b : MapOrderBook} (h : Ready b.toBook) (hd : Deleted b i w l n b') :
    Ready b'.toBook ∧ b'.orders.size ≤ b.orders.size := by
  have hsize := SortedMap.size_erase hd.order
  refine ⟨⟨h.linked.deleted hd, fun hk hs => ?_⟩, by rw [hd.orders]; omega⟩
  rw [hd.find?_orders] at hk
  split at hk
  · cases hk
  · exact h.notFok hk hs

theorem Ready.changed {b : MapOrderBook} (h : Ready b.toBook) (ht : w.order.SameTerms o)
    (hc : Changed b i w l o q p ns b') : Ready b'.toBook ∧ b'.orders.size ≤ b.orders.size := by
  have hsize := SortedMap.size_erase hc.order
  refine ⟨⟨h.linked.changed ht hc, fun {k w'} hk hs => ?_⟩, ?_⟩
  · rw [hc.find?_orders] at hk
    split at hk
    · split at hk
      · cases hk
      · cases hk
        rw [ht.timeInForce]
        exact h.notFok hc.order (ht.isStopType.1 hs)
    · exact h.notFok hk hs
  · rw [hc.orders]
    split
    · omega
    · rw [SortedMap.size_insert]
      omega

theorem Ready.filled {b : MapOrderBook} (h : Ready b.toBook) (hf : Filled b o b') :
    Ready b'.toBook := by
  refine ⟨hf.linked, fun {k w'} hk hs => ?_⟩
  rcases hf.rests hk with ⟨w, hw, hst, _⟩ | ⟨_, hst, hlim⟩
  · rw [hst.timeInForce]
    exact h.notFok hw (hst.isStopType.1 hs)
  · exact absurd (hst.type.trans hlim) hs.ne_limit

section Operation
variable {b : MapOrderBook} {o : Order}

theorem submitOrder_returns (h : Ready b.toBook) (hn : b.orders.find? o.id = none)
    (hk : o.timeInForce ≠ .fok) (hs : b.orders.size < fuel) :
    ∃ b', b.submitOrder fuel o = .ok b' ∧ Ready b'.toBook ∧
      b'.orders.size ≤ b.orders.size + 1 := by
  have hfill (b₀ : MapOrderBook) (o' : Order) (he : b₀.toBook = b.toBook) (hid : o'.id = o.id)
      (hm : o'.IsMatchable) (ht : o'.timeInForce = o.timeInForce) : ∃ b', b₀.fill fuel o' = .ok b' ∧
      Ready b'.toBook ∧ b'.orders.size ≤ b.orders.size + 1 := by
    rw [← he] at h hs hn ⊢
    obtain ⟨b', hb'⟩ := fill_returns h.linked (ht ▸ hk) hs
    have hf := fill_filled (.of_some h.linked (hid ▸ hn)) hm hb'
    exact ⟨b', hb', h.filled hf, hf.size⟩
  have hsub : Submission fuel b o (b.submitOrder fuel o) := submitOrder_submission hn
  generalize b.submitOrder fuel o = x at hsub ⊢
  cases hsub with
  | matched ho => exact hfill _ o rfl rfl ho rfl
  | triggered ho _ =>
    exact hfill _ _ rfl (id_arriving _ _)
      (Order.activate_isMatchable ((isStopType_arriving _ _).2 ho)) (timeInForce_arriving _ _)
  | waits ho _ hh hi =>
    have hn' : (b.emit (.orderAdded o)).orders.find? (b.arriving o).id = none := by
      rw [id_arriving]
      exact hn
    have hl : Linked (b.emit (.orderAdded o)).toBook := h.linked
    refine ⟨_, rfl, ⟨hl.inserted hn' hh hi, fun {k w} hw hst => ?_⟩, ?_⟩
    · rw [hi.find?_orders] at hw
      split at hw
      · cases hw
        rw [timeInForce_arriving]
        exact hk
      · exact h.notFok hw hst
    · rw [hi.orders, SortedMap.size_insert, SortedMap.erase_of_find?_none hn']
      exact Nat.le_refl _

theorem addOrder_returns (h : Ready b.toBook) (hn : b.orders.find? o.id = none)
    (hk : o.timeInForce ≠ .fok) (hs : b.orders.size + 2 < fuel) :
    ∃ b', b.addOrder fuel o = .ok b' ∧ Ready b'.toBook ∧ b'.orders.size ≤ b.orders.size + 1 := by
  have hs' : b.orders.size < fuel := by omega
  obtain ⟨b₁, hb₁, hr₁, hs₁⟩ := submitOrder_returns h hn hk hs'
  have hs₁' : b₁.orders.size + 1 < fuel := by omega
  obtain ⟨b', os, hb', hc⟩ := activateStopOrders_returns hr₁ hs₁'
  refine ⟨b', ?_, hr₁.cascaded hc, hc.size.trans hs₁⟩
  unfold MapOrderBook.addOrder
  rw [hb₁, ok_bind, hb']

/-- Every operation returns, given turns for as many orders as rest. -/
theorem apply_returns {op : Op} (h : Ready b.toBook) (hl : op.Legal b.toBook)
    (hk : ∀ o, op.incoming b.toBook = some o → o.timeInForce ≠ .fok)
    (hn : b.orders.size + 2 < fuel) : ∃ b', b.apply fuel op = .ok b' := by
  have hrest {i} (hi : b.orders.find? i ≠ none) : ∃ w l, b.orders.find? i = some w ∧
      b.level? w.levelIt = some l ∧ w.order.home? = some w.levelIt := by
    obtain ⟨w, hw⟩ := Option.ne_none_iff_exists'.1 hi
    obtain ⟨l, hlev, _⟩ := h.linked.held hw
    exact ⟨w, l, hw, hlev, h.linked.home hw⟩
  -- after its direct part an operation runs the cascade
  have hcascade {x : Exec MapOrderBook} {b₁ : MapOrderBook} (hx : x = .ok b₁)
      (h₁ : Ready b₁.toBook ∧ b₁.orders.size ≤ b.orders.size) :
      ∃ b', (x >>= MapOrderBook.activateStopOrders fuel) = .ok b' := by
    have hsize : b₁.orders.size + 1 < fuel := by
      have := h₁.2
      omega
    obtain ⟨b', _, hb', _⟩ := activateStopOrders_returns h₁.1 hsize
    rw [hx]
    exact ⟨b', hb'⟩
  cases op with
  | addOrder o =>
    obtain ⟨b', hb', _⟩ := addOrder_returns h hl.2 (hk o rfl) hn
    exact ⟨b', hb'⟩
  | executeOrderAt i q p =>
    obtain ⟨w, l, hw, hlev, hh⟩ := hrest hl
    obtain ⟨b₁, hb₁⟩ := executeResting_ok hw hlev hh q fun _ => p
    obtain ⟨w', l', hc⟩ := executeResting_changed hb₁
    exact hcascade hb₁ (h.changed (.execute _ _ _) hc)
  | executeOrder i q =>
    obtain ⟨w, l, hw, hlev, hh⟩ := hrest hl
    obtain ⟨b₁, hb₁⟩ := executeResting_ok hw hlev hh q Order.price
    obtain ⟨w', l', hc⟩ := executeResting_changed hb₁
    exact hcascade hb₁ (h.changed (.execute _ _ _) hc)
  | cancelOrder i q =>
    obtain ⟨w, l, hw, hlev, hh⟩ := hrest hl
    obtain ⟨b₁, hb₁⟩ := cancelResting_ok hw hlev hh q
    obtain ⟨w', l', hc⟩ := cancelResting_changed hb₁
    exact hcascade hb₁ (h.changed (.setQuantity _ _) hc)
  | deleteOrder i =>
    obtain ⟨w, l, hw, hlev, hh⟩ := hrest hl
    obtain ⟨b₁, hb₁⟩ := deleteOrderWith_ok hw hlev hh true
    obtain ⟨w', l', hd⟩ := deleteOrderWith_deleted hb₁
    exact hcascade hb₁ (h.deleted hd)
  | replaceOrder i i' p =>
    obtain ⟨w, l, hw, hlev, hh⟩ := hrest hl.1
    obtain ⟨b₁, hb₁⟩ := deleteOrderWith_ok hw hlev hh true
    obtain ⟨w', l', hd⟩ := deleteOrderWith_deleted hb₁
    obtain ⟨hr₁, hs₁⟩ := h.deleted hd
    have hfresh : b₁.orders.find? (w.order.replaced i' p).id = none := by
      change b₁.orders.find? i' = none
      rw [hd.find?_orders]
      split
      · rfl
      · exact hl.2.1.resolve_left ‹_›
    have hk' : (w.order.replaced i' p).timeInForce ≠ .fok := by
      refine hk _ ?_
      rw [Op.incoming, Book.resting, hw]
      rfl
    have hsize := SortedMap.size_erase hd.order
    obtain ⟨b₂, hb₂, hr₂, hs₂⟩ := addOrder_returns hr₁ hfresh hk' (by omega : _ < fuel)
    have hs₂' : b₂.orders.size + 1 < fuel := by omega
    obtain ⟨b', _, hb', _⟩ := activateStopOrders_returns hr₂ hs₂'
    refine ⟨b', ?_⟩
    change b.replaceOrder fuel i i' p = _
    unfold MapOrderBook.replaceOrder
    rw [orderAt_eq_ok.2 hw, ok_bind, hb₁, ok_bind]
    change b₁.addOrder fuel (w.order.replaced i' p) >>= _ = _
    rw [hb₂, ok_bind, hb']

end Operation

/-- Matching and cascades end when no order that is in hand or waits is fill-or-kill: `match` turns
at most once for each order on the other side, and a cascade once more than it activates. -/
theorem cascades_terminate (h : RepInv b.toBook)
    (hk : ∀ i w, b.orders.find? i = some w → w.order.IsStopType → w.order.timeInForce ≠ .fok) :
    (∀ o fuel, o.timeInForce ≠ .fok → b.restingCount (Book.oppositeMap o.side) < fuel →
      ∃ s, b.matchOrder fuel o = .ok s) ∧
    (∀ fuel, b.orders.size < fuel → ∃ b' os,
      whileLoop Prod.snd (fun s => MapOrderBook.activatePass fuel s.1) Prod.fst
        (b.stopIds.length + 2) (b, true) = .ok (b', false) ∧
      activations b'.trace = activations b.trace ++ os ∧ (os.map Order.id).Nodup ∧
      ∀ o ∈ os, o.id ∈ b.stopIds) ∧
    ∀ op fuel, op.Legal b.toBook →
      (∀ o, op.incoming b.toBook = some o → o.timeInForce ≠ .fok) →
      b.orders.size + 2 < fuel → ∃ b', b.apply fuel op = .ok b' := by
  have hr : Ready b.toBook := ⟨h.linked, fun hw hs => hk _ _ hw hs⟩
  refine ⟨fun o fuel ho hn => matchOrder_returns_of_not_fok h.linked ho hn, fun fuel hn => ?_,
    fun op fuel hl ho hn => apply_returns hr hl ho hn⟩
  obtain ⟨b', os, hs, hc⟩ := cascade_ends (m := b.stopIds.length + 2) hr hn (by omega)
  have hnd := hc.ids.nodup_iff.1 (nodup_stopIds _)
  refine ⟨b', os, hs, hc.activations, (List.nodup_append.1 hnd).2.1, fun o ho => ?_⟩
  exact hc.ids.mem_iff.2 (List.mem_append_right _ (List.mem_map.2 ⟨o, ho, rfl⟩))

theorem cascades_terminate_risingStopOps : ∃ b : MapOrderBook,
    (MapOrderBook.new 1).run 20 risingStopOps = .ok b ∧ b.stopIds = [2, 3, 4] ∧
    (∃ s, b.matchOrder 2 (.new .limit .bid .ioc 1 100 0 0 9 5) = .ok s) ∧
    (∃ b', whileLoop Prod.snd (fun s => MapOrderBook.activatePass 20 s.1) Prod.fst 5
      ({ b with lastTradedPrice := 120 }, true) = .ok (b', false)) ∧
    ∃ b', b.apply 20 (.executeOrderAt 1 1 120) = .ok b' := by
  obtain ⟨b, hb, hr, hf⟩ := exists_reachable_of_run Op.Legal 1 20 risingStopOps (by decide +kernel)
    (f := fun b => some (b.stopIds, b.orders.size, b.restingCount .ask,
      b.orders.entries.all fun e => e.2.order.timeInForce ≠ .fok,
      decide (Op.Legal b.toBook (.executeOrderAt 1 1 120))))
    (o := ([2, 3, 4], 4, 1, true, true)) (by decide +kernel)
  obtain ⟨hids, hsize, hcount, hall, hlegal⟩ : b.stopIds = [2, 3, 4] ∧ b.orders.size = 4 ∧
      b.restingCount .ask = 1 ∧
      (b.orders.entries.all fun e => e.2.order.timeInForce ≠ .fok) = true ∧
      Op.Legal b.toBook (.executeOrderAt 1 1 120) := by
    simpa only [Option.some.injEq, Prod.mk.injEq, decide_eq_true_eq] using hf
  have hk (i : UInt64) (w : OrderWrapper) (hw : b.orders.find? i = some w)
      (_ : w.order.IsStopType) : w.order.timeInForce ≠ .fok :=
    of_decide_eq_true (List.all_eq_true.1 hall _ (SortedMap.find?_eq_some.1 hw))
  have hrep := repInv_of_reachable hr
  obtain ⟨hmatch, _, hops⟩ := cascades_terminate hrep hk
  obtain ⟨b', _, hs, _⟩ := (cascades_terminate (b := { b with lastTradedPrice := 120 })
    (hrep.setPrice 120) hk).2.1 20 (by change b.orders.size < 20; omega)
  refine ⟨b, hb, hids, hmatch _ 2 nofun (by change b.restingCount .ask < 2; omega), ⟨b', ?_⟩,
    hops _ 20 hlegal nofun (by omega)⟩
  have hlen : ({ b with lastTradedPrice := 120 } : MapOrderBook).stopIds.length = 3 := by
    change b.stopIds.length = 3
    rw [hids]
    rfl
  rw [hlen] at hs
  exact hs

end RapidTrader
