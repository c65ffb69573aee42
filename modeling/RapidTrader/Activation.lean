import RapidTrader.Filling
import RapidTrader.Representation

namespace RapidTrader
open Lib
set_option autoImplicit true

theorem activateStopOrder_eq (fuel : Nat) (b : MapOrderBook) (o : Order) :
    b.activateStopOrder fuel o = b.deleteOrderWith o.id false >>= fun b =>
      (b.emit (.orderUpdated o.activate)).fill fuel o.activate >>= fun b =>
        .ok (b.note (.activated o b.toBook)) := by
  unfold MapOrderBook.activateStopOrder MapOrderBook.fill Order.activate
  have hst : (((o.setStopPrice 0).setTrailAmount 0).isStop ||
      ((o.setStopPrice 0).setTrailAmount 0).isTrailingStop) = (o.isStop || o.isTrailingStop) := rfl
  cases h : o.isStop || o.isTrailingStop <;> simp only [hst, h] <;> rfl

/-- One turn of an activation loop: the order of `w`, which is the front of the first level, leaves
the book and is filled. -/
structure Activated (fuel : Nat) (t : LevelMap) (b : MapOrderBook) (key : UInt64) (l : Level)
    (i : UInt64) (w : OrderWrapper) (b₁ b₂ b' : MapOrderBook) : Prop where
  first : b.firstStop t = some (key, l)
  front : l.front = some i
  erased : b.deleteOrderWith w.order.id false = .ok b₁
  deleted : Deleted b i w l false b₁
  levelIt : w.levelIt = ⟨t, key⟩
  filled : (b₁.emit (.orderUpdated w.order.activate)).fill fuel w.order.activate = .ok b₂
  noted : b' = b₂.note (.activated w.order b₂.toBook)

theorem activateFront_activated (h : Linked b.toBook) (hf : b.activateFront fuel t = .ok b') :
    ∃ key l i w b₁ b₂, Activated fuel t b key l i w b₁ b₂ b' := by
  unfold MapOrderBook.activateFront at hf
  cases hfs : b.firstStop t with
  | none =>
    rw [hfs] at hf
    cases hf
  | some e =>
    obtain ⟨key, l⟩ := e
    obtain ⟨i, w, hfr, hw, hit, hid, _⟩ := h.front (firstStop_eq_some hfs)
    rw [hfs] at hf
    dsimp only at hf
    rw [hfr] at hf
    dsimp only at hf
    rw [orderAt_eq_ok.2 hw, ok_bind, activateStopOrder_eq, hid] at hf
    obtain ⟨b₁, hd, hf⟩ := bind_eq_ok.1 hf
    obtain ⟨b₂, hfill, hf⟩ := bind_eq_ok.1 hf
    cases hf
    obtain ⟨w', l', hdel⟩ := deleteOrderWith_deleted hd
    have hw' := hdel.order
    rw [hw] at hw'
    cases hw'
    have hl' := hdel.held
    rw [hit, firstStop_eq_some hfs] at hl'
    cases hl'
    exact ⟨key, l, i, w, b₁, b₂, hfs, hfr, by rw [hid, hd], hdel, hit, hfill, rfl⟩

/-- What an activation does to the stop orders: the order of `w` leaves, and all others stay where
they are, whatever the trades bring about. -/
structure Popped (t : LevelMap) (b : MapOrderBook) (key : UInt64) (l : Level) (i : UInt64)
    (w : OrderWrapper) (b' : MapOrderBook) : Prop where
  linked : Linked b'.toBook
  rests : b'.orders.find? k ≠ none → b.orders.find? k ≠ none
  stops : w'.order.type ≠ .limit →
    (b'.orders.find? k = some w' ↔ k ≠ i ∧ b.orders.find? k = some w')
  stopLevels : it.levels.IsStop → b'.level? it =
    if it = ⟨t, key⟩ then
      if (l.deleteOrder w.order).empty then none else some (l.deleteOrder w.order)
    else b.level? it
  size : b'.orders.size ≤ b.orders.size
  activations : activations b'.trace = activations b.trace ++ [w.order]
  additions : additions b'.trace = additions b.trace

theorem Activated.popped (h : Linked b.toBook) (ht : t.IsStop)
    (ha : Activated fuel t b key l i w b₁ b₂ b') : Popped t b key l i w b' := by
  have hd := ha.deleted
  have hh := h.home hd.order
  have hst : w.order.IsStopType := Order.isStopType_of_home? hh (by rw [ha.levelIt]; exact ht)
  have hn : b₁.orders.find? w.order.id = none := by
    rw [hd.find?_orders, if_pos (h.id hd.order)]
  have hl₁ : Linked b₁.toBook := h.deleted hd
  have hc : Consistent ⟨b₁.emit (.orderUpdated w.order.activate), some w.order.activate⟩ :=
    .of_some hl₁ hn
  have hf := fill_filled hc (Order.activate_isMatchable hst) ha.filled
  cases ha.noted
  refine ⟨hf.linked, fun {k} hk => ?_, fun {k w'} hne => ⟨fun hk => ?_, fun ⟨hki, hk⟩ => ?_⟩,
    fun {it} hs => ?_, ?_, ?_, ?_⟩
  · obtain ⟨w', hk⟩ := Option.ne_none_iff_exists'.1 hk
    rcases hf.rests hk with ⟨w₀, hw₀, _⟩ | ⟨hki, _⟩
    · rw [toBook_emit, hd.find?_orders] at hw₀
      split at hw₀
      · cases hw₀
      · rw [hw₀]
        exact Option.some_ne_none w₀
    · rw [show k = i from hki.trans (h.id hd.order), hd.order]
      exact Option.some_ne_none w
  · have hk₁ : b₁.orders.find? k = some w' := by
      rcases hf.rests hk with ⟨w₀, hw₀, hst₀, _⟩ | ⟨_, hst₀, hlim⟩
      · have hne₀ : w₀.order.type ≠ .limit := hst₀.type ▸ hne
        have hk₀ := hf.stops hw₀ hne₀
        rw [show b₂.orders.find? k = some w' from hk] at hk₀
        cases hk₀
        exact hw₀
      · exact absurd (hst₀.type.trans hlim) hne
    rw [hd.find?_orders] at hk₁
    split at hk₁
    · cases hk₁
    · exact ⟨‹_›, hk₁⟩
  · apply hf.stops _ hne
    rw [toBook_emit, hd.find?_orders, if_neg hki, hk]
  · refine (hf.stopLevels hs).trans ?_
    rw [toBook_emit, hd.levels hh, ha.levelIt]
  · have hsize := SortedMap.size_erase hd.order
    have hle := hf.size
    rw [toBook_emit, hd.orders] at hle
    rw [toBook_note]
    omega
  · have hp := hf.trace.activations
    rw [trace_note, activations_append, hp, trace_emit, hd.trace, activations_append,
      activations_append]
    simp [RapidTrader.activations, Note.activated?]
  · have hp := hf.trace.additions
    rw [trace_note, additions_append, hp, trace_emit, hd.trace, additions_append, additions_append]
    simp [RapidTrader.additions, Note.added?]

/-! ### The order of activation -/

namespace Book

/-- The levels of a map in the order of activation: bids from the lowest price on, asks from the
highest. -/
def stopLevels (b : Book) (t : LevelMap) : List (UInt64 × Level) :=
  match t.side with
  | .bid => (b.levels t).entries
  | .ask => (b.levels t).entries.reverse

/-- The orders of a map in the order of activation, each level from its front. -/
def stopOrders (b : Book) (t : LevelMap) : List Order :=
  (b.stopLevels t).flatMap fun e => e.2.orders.filterMap b.resting

/-- The orders of a map which a price triggers. -/
def triggered (b : Book) (t : LevelMap) (lastPrice : UInt64) : List Order :=
  (b.stopOrders t).filter fun o => triggers t.side o.stopPrice lastPrice

end Book

theorem head?_stopLevels (b : Book) (t : LevelMap) : (b.stopLevels t).head? = b.firstStop t := by
  unfold Book.stopLevels Book.firstStop
  cases t.side with
  | bid => rfl
  | ask => exact List.head?_reverse

theorem mem_stopLevels {b : Book} {t : LevelMap} :
    (key, l) ∈ b.stopLevels t ↔ b.level? ⟨t, key⟩ = some l := by
  unfold Book.stopLevels
  cases t.side with
  | bid => exact SortedMap.find?_eq_some.symm
  | ask => exact List.mem_reverse.trans SortedMap.find?_eq_some.symm

theorem mem_stopOrders {b : Book} (h : Linked b) : o ∈ b.stopOrders t ↔
    ∃ key, b.orders.find? o.id = some ⟨o, ⟨t, key⟩⟩ := by
  simp only [Book.stopOrders, List.mem_flatMap, List.mem_filterMap, Book.resting,
    Option.map_eq_some_iff]
  constructor
  · rintro ⟨⟨key, l⟩, hl, i, hi, w, hw, rfl⟩
    obtain ⟨w', hw', hit⟩ := h.owned (mem_stopLevels.1 hl) hi
    rw [hw] at hw'
    cases hw'
    refine ⟨key, ?_⟩
    rw [h.id hw, hw, ← hit]
  · rintro ⟨key, hw⟩
    obtain ⟨l, hl, hi⟩ := h.held hw
    exact ⟨(key, l), mem_stopLevels.2 hl, o.id, hi, _, hw, rfl⟩

/-- The order in which prices are activated. -/
def LevelSide.Before : LevelSide → UInt64 → UInt64 → Prop
  | .bid, p, q => p ≤ q
  | .ask, p, q => q ≤ p

theorem LevelSide.Before.refl (side : LevelSide) (p : UInt64) : side.Before p p := by
  cases side <;> exact UInt64.le_refl p

theorem pairwise_stopLevels (b : Book) (t : LevelMap) :
    (b.stopLevels t).Pairwise fun e e' => t.side.Before e.1 e'.1 := by
  unfold Book.stopLevels
  cases t.side with
  | bid => exact (b.levels t).sorted.imp UInt64.le_of_lt
  | ask => exact List.pairwise_reverse.2 ((b.levels t).sorted.imp UInt64.le_of_lt)

theorem nodup_stopLevels (b : Book) (t : LevelMap) : (b.stopLevels t).Nodup := by
  unfold Book.stopLevels
  cases t.side with
  | bid => exact (b.levels t).nodup_entries
  | ask => exact List.nodup_reverse.2 (b.levels t).nodup_entries

theorem stopPrice_of_mem_level {b : Book} (h : Linked b) (ht : t.IsStop)
    (hl : (key, l) ∈ b.stopLevels t) (ho : o ∈ l.orders.filterMap b.resting) :
    o.stopPrice = key := by
  obtain ⟨i, hi, hres⟩ := List.mem_filterMap.1 ho
  obtain ⟨w, hw, rfl⟩ := Option.map_eq_some_iff.1 hres
  obtain ⟨w', hw', hit⟩ := h.owned (mem_stopLevels.1 hl) hi
  rw [hw] at hw'
  cases hw'
  rw [← (h.stop_map hw (Order.isStopType_of_home? (h.home hw) (by rw [hit]; exact ht))).1, hit]

theorem pairwise_stopOrders {b : Book} (h : Linked b) (ht : t.IsStop) :
    (b.stopOrders t).Pairwise fun o o' => t.side.Before o.stopPrice o'.stopPrice := by
  refine List.pairwise_flatMap.2 ⟨?_, ?_⟩
  · rintro ⟨key, l⟩ hl
    apply List.pairwise_of_forall_mem_list
    intro o ho o' ho'
    rw [stopPrice_of_mem_level h ht hl ho, stopPrice_of_mem_level h ht hl ho']
    exact .refl _ _
  · refine (pairwise_stopLevels b t).imp_of_mem ?_
    rintro ⟨key, l⟩ ⟨key', l'⟩ hl hl' hle o ho o' ho'
    rw [stopPrice_of_mem_level h ht hl ho, stopPrice_of_mem_level h ht hl' ho']
    exact hle

/-- The orders of one stop price are those of its level. -/
theorem filter_stopOrders {b : Book} (h : Linked b) (ht : t.IsStop)
    (hl : b.level? ⟨t, key⟩ = some l) :
    (b.stopOrders t).filter (fun o => o.stopPrice = key) = l.orders.filterMap b.resting := by
  obtain ⟨pre, post, hs⟩ := List.append_of_mem (mem_stopLevels.2 hl)
  have hnd := nodup_stopLevels b t
  rw [hs] at hnd
  have hout {e : UInt64 × Level} (he : e ∈ pre ++ post) :
      (e.2.orders.filterMap b.resting).filter (fun o => o.stopPrice = key) = [] := by
    obtain ⟨key', l'⟩ := e
    refine List.filter_eq_nil_iff.2 fun o ho hk => ?_
    have hmem : (key', l') ∈ b.stopLevels t := by
      rw [hs]
      rcases List.mem_append.1 he with he | he
      · exact List.mem_append_left _ he
      · exact List.mem_append_right _ (List.mem_cons_of_mem _ he)
    obtain rfl : key' = key :=
      (stopPrice_of_mem_level h ht hmem ho).symm.trans (of_decide_eq_true hk)
    cases (mem_stopLevels.1 hmem).symm.trans hl
    exact (List.nodup_cons.1 (List.nodup_middle.1 hnd)).1 he
  have hin : (l.orders.filterMap b.resting).filter (fun o => o.stopPrice = key) =
      l.orders.filterMap b.resting := by
    refine List.filter_eq_self.2 fun o ho => ?_
    exact decide_eq_true (stopPrice_of_mem_level h ht (mem_stopLevels.2 hl) ho)
  have hpre : pre.flatMap (fun e => (e.2.orders.filterMap b.resting).filter
      (fun o => o.stopPrice = key)) = [] :=
    List.flatMap_eq_nil_iff.2 fun _ he => hout (List.mem_append_left _ he)
  have hpost : post.flatMap (fun e => (e.2.orders.filterMap b.resting).filter
      (fun o => o.stopPrice = key)) = [] :=
    List.flatMap_eq_nil_iff.2 fun _ he => hout (List.mem_append_right _ he)
  rw [Book.stopOrders, List.filter_flatMap, hs, List.flatMap_append, List.flatMap_cons, hpre,
    hpost, hin, List.nil_append, List.append_nil]

theorem map_id_resting {b : Book} (h : Linked b) (hl : b.level? it = some l) :
    (l.orders.filterMap b.resting).map Order.id = l.orders := by
  rw [List.map_filterMap]
  refine Eq.trans (List.filterMap_congr fun i hi => ?_) List.filterMap_some
  obtain ⟨w, hw, _⟩ := h.owned hl hi
  rw [Book.resting, hw]
  exact congrArg some (h.id hw)

/-- What a price activates of a map of stop orders: all the orders that rest there and that the
price triggers, by their stop prices, and those of one stop price as they stand in their level. -/
structure InActivationOrder (b : Book) (t : LevelMap) (lastPrice : UInt64) (os : List Order) :
    Prop where
  mem : o ∈ os ↔ (∃ key, b.orders.find? o.id = some ⟨o, ⟨t, key⟩⟩) ∧
    Book.triggers t.side o.stopPrice lastPrice = true
  sorted : os.Pairwise fun o o' => t.side.Before o.stopPrice o'.stopPrice
  queued : b.level? ⟨t, key⟩ = some l → Book.triggers t.side key lastPrice = true →
    (os.filter fun o => o.stopPrice = key).map Order.id = l.orders

theorem inActivationOrder_triggered {b : Book} (h : Linked b) (ht : t.IsStop) (p : UInt64) :
    InActivationOrder b t p (b.triggered t p) where
  mem {o} := by rw [Book.triggered, List.mem_filter, mem_stopOrders h]
  sorted := (pairwise_stopOrders h ht).filter _
  queued {key l} hl hp := by
    have hboth (o : Order) : (decide (o.stopPrice = key) &&
        Book.triggers t.side o.stopPrice p) = decide (o.stopPrice = key) := by
      by_cases hk : o.stopPrice = key
      · rw [hk, hp, Bool.and_true]
      · rw [decide_eq_false hk, Bool.false_and]
    rw [Book.triggered, List.filter_filter, List.filter_congr fun o _ => hboth o,
      filter_stopOrders h ht hl, map_id_resting h hl]

section Pop
variable {b b' : MapOrderBook} {t : LevelMap}

theorem stopLevels_erase (hm : b'.levels t = (b.levels t).erase key)
    (hs : b.stopLevels t = (key, l) :: rest) : b'.stopLevels t = rest := by
  unfold Book.stopLevels at hs ⊢
  rw [hm]
  cases hside : t.side with
  | bid =>
    rw [hside] at hs
    have hs' : (b.levels t).entries = [] ++ (key, l) :: rest := hs
    exact SortedMap.entries_erase hs'
  | ask =>
    rw [hside] at hs
    have he : (b.levels t).entries = rest.reverse ++ (key, l) :: [] := by
      rw [← List.reverse_cons, ← hs, List.reverse_reverse]
    dsimp only
    rw [SortedMap.entries_erase he, List.append_nil, List.reverse_reverse]

theorem stopLevels_modify {f : Level → Level} (hm : b'.levels t = (b.levels t).modify key f)
    (hs : b.stopLevels t = (key, l) :: rest) : b'.stopLevels t = (key, f l) :: rest := by
  unfold Book.stopLevels at hs ⊢
  rw [hm]
  cases hside : t.side with
  | bid =>
    rw [hside] at hs
    have hs' : (b.levels t).entries = [] ++ (key, l) :: rest := hs
    exact SortedMap.entries_modify f hs'
  | ask =>
    rw [hside] at hs
    have he : (b.levels t).entries = rest.reverse ++ (key, l) :: [] := by
      rw [← List.reverse_cons, ← hs, List.reverse_reverse]
    dsimp only
    rw [SortedMap.entries_modify f he, List.reverse_append, List.reverse_cons, List.reverse_nil,
      List.nil_append, List.reverse_reverse, List.singleton_append]

/-- An order that rests in a map of stop orders is not a limit order. -/
theorem Linked.not_limit {b : Book} (h : Linked b) (hw : b.orders.find? i = some w)
    (hs : w.levelIt.levels.IsStop) : w.order.type ≠ .limit := fun hlim =>
  Order.not_isStopType hlim (Order.isStopType_of_home? (h.home hw) hs)

theorem Popped.resting (h : Linked b.toBook) (hp : Popped t b key l i w b')
    (hl : b.level? ⟨t', key'⟩ = some l') (hs : t'.IsStop) (hk : k ∈ l'.orders) (hne : k ≠ i) :
    b'.resting k = b.resting k := by
  obtain ⟨w', hw', hit⟩ := h.owned hl hk
  have hlim := h.not_limit hw' (by rw [hit]; exact hs)
  rw [Book.resting, (hp.stops hlim).2 ⟨hne, hw'⟩, Book.resting, hw']

/-- The other maps of stop orders stay as they are. -/
theorem Popped.stopOrders_of_ne (h : Linked b.toBook) (hp : Popped t b key l i w b')
    (hw : b.orders.find? i = some w) (hit : w.levelIt = ⟨t, key⟩) (hs : t'.IsStop) (hne : t' ≠ t) :
    b'.stopOrders t' = b.stopOrders t' := by
  have hm : b'.levels t' = b.levels t' := by
    apply SortedMap.ext_find?
    intro key'
    have hit : (⟨t', key'⟩ : LevelIt) ≠ ⟨t, key⟩ := by
      rintro ⟨⟩
      exact hne rfl
    exact (hp.stopLevels hs).trans (if_neg hit)
  have hlv : b'.stopLevels t' = b.stopLevels t' := by
    unfold Book.stopLevels
    rw [hm]
  unfold Book.stopOrders
  rw [hlv]
  apply List.flatMap_congr
  rintro ⟨key', l'⟩ hl'
  apply List.filterMap_congr
  intro k hk
  have hlev := mem_stopLevels.1 hl'
  apply hp.resting h hlev hs hk
  rintro rfl
  obtain ⟨w', hw', hit'⟩ := h.owned hlev hk
  rw [hw] at hw'
  cases hw'
  rw [hit] at hit'
  cases hit'
  exact hne rfl

/-- The first level loses its front, and is gone when that was all. -/
theorem Popped.stopLevels_cons (ht : t.IsStop) (hp : Popped t b key l i w b')
    (hs : b.stopLevels t = (key, l) :: rest) : b'.stopLevels t =
      if (l.deleteOrder w.order).empty then rest else (key, l.deleteOrder w.order) :: rest := by
  have hfind (key' : UInt64) : (b'.levels t).find? key' = if key' = key then
      if (l.deleteOrder w.order).empty then none else some (l.deleteOrder w.order)
      else (b.levels t).find? key' := by
    have hk : b'.level? ⟨t, key'⟩ = _ := hp.stopLevels ht
    simp only [LevelIt.mk.injEq, true_and] at hk
    exact hk
  cases he : (l.deleteOrder w.order).empty with
  | true =>
    rw [if_pos rfl]
    refine stopLevels_erase (SortedMap.ext_find? fun key' => ?_) hs
    rw [hfind, he, if_pos rfl, SortedMap.find?_erase]
  | false =>
    rw [if_neg Bool.false_ne_true]
    refine stopLevels_modify (f := fun _ => l.deleteOrder w.order)
      (SortedMap.ext_find? fun key' => ?_) hs
    have hl : (b.levels t).find? key = some l :=
      mem_stopLevels.1 (by rw [hs]; exact List.mem_cons_self)
    rw [hfind, he, if_neg Bool.false_ne_true, SortedMap.find?_modify]
    split
    · rename_i hkey
      rw [hkey, hl]
      rfl
    · rfl

/-- The orders behind an activated one stay as they are. -/
theorem Popped.resting_behind (h : Linked b.toBook) (ht : t.IsStop)
    (hw : b.orders.find? i = some w) (hit : w.levelIt = ⟨t, key⟩)
    (hp : Popped t b key l i w b') (hs : b.stopLevels t = (key, l) :: rest) :
    rest.flatMap (fun e => e.2.orders.filterMap b'.resting) =
      rest.flatMap (fun e => e.2.orders.filterMap b.resting) := by
  have hnd := nodup_stopLevels b.toBook t
  rw [hs] at hnd
  apply List.flatMap_congr
  rintro ⟨key', l'⟩ hl'
  apply List.filterMap_congr
  intro k hk
  have hlev : b.level? ⟨t, key'⟩ = some l' :=
    mem_stopLevels.1 (by rw [hs]; exact List.mem_cons_of_mem _ hl')
  refine hp.resting h hlev ht hk ?_
  rintro rfl
  obtain ⟨w', hw', hit'⟩ := h.owned hlev hk
  rw [hw] at hw'
  cases hw'
  rw [hit] at hit'
  cases hit'
  have hl : b.level? ⟨t, key⟩ = some l := mem_stopLevels.1 (by rw [hs]; exact List.mem_cons_self)
  rw [hl] at hlev
  cases hlev
  exact (List.nodup_cons.1 hnd).1 hl'

/-- The order that is activated is the first of its map. -/
theorem Popped.stopOrders (h : Linked b.toBook) (ht : t.IsStop)
    (hf : b.firstStop t = some (key, l)) (hfr : l.front = some i)
    (hw : b.orders.find? i = some w) (hit : w.levelIt = ⟨t, key⟩)
    (hp : Popped t b key l i w b') : b.stopOrders t = w.order :: b'.stopOrders t := by
  have hlev := firstStop_eq_some hf
  obtain ⟨is, his⟩ : ∃ is, l.orders = i :: is := List.head?_eq_some_iff.1 hfr
  obtain ⟨rest, hrest⟩ : ∃ rest, b.stopLevels t = (key, l) :: rest := by
    rw [← List.head?_eq_some_iff, head?_stopLevels, hf]
  have hdel : (l.deleteOrder w.order).orders = is := by
    rw [Level.deleteOrder, h.id hw, his, List.erase_cons_head]
  have hfirst : is.filterMap b'.resting = is.filterMap b.resting := by
    have hnd := (h.sound hlev).nodup
    rw [his] at hnd
    apply List.filterMap_congr
    intro k hk
    refine hp.resting h hlev ht (by rw [his]; exact List.mem_cons_of_mem _ hk) ?_
    rintro rfl
    exact (List.nodup_cons.1 hnd).1 hk
  have hold : b.stopOrders t = w.order :: (is.filterMap b.resting ++
      rest.flatMap (fun e => e.2.orders.filterMap b.resting)) := by
    have hres : b.resting i = some w.order := by rw [Book.resting, hw]; rfl
    rw [Book.stopOrders, hrest, List.flatMap_cons, his, List.filterMap_cons_some hres,
      List.cons_append]
  have hnew : b'.stopOrders t = is.filterMap b'.resting ++
      rest.flatMap (fun e => e.2.orders.filterMap b'.resting) := by
    rw [Book.stopOrders, hp.stopLevels_cons ht hrest]
    split
    · rename_i he
      have hnil : is = [] := by
        rw [← hdel]
        exact List.isEmpty_iff.1 he
      rw [hnil]
      rfl
    · rw [List.flatMap_cons, hdel]
  rw [hold, hnew, hfirst, hp.resting_behind h ht hw hit hrest]

end Pop

/-- What an activation loop has done after some turns: it has activated `done`, which was the first
part of its queue. -/
structure Activating (b : MapOrderBook) (t : LevelMap) (p : UInt64) (f : Bool)
    (done : List Order) (s : MapOrderBook × Bool) : Prop where
  linked : Linked s.1.toBook
  queue : b.stopOrders t = done ++ s.1.stopOrders t
  triggered : ∀ o ∈ done, Book.triggers t.side o.stopPrice p = true
  activations : activations s.1.trace = activations b.trace ++ done
  flag : s.2 = (f || !done.isEmpty)
  others : t'.IsStop → t' ≠ t → s.1.stopOrders t' = b.stopOrders t'

theorem Activating.turn (ht : t.IsStop) (h : Activating b t p f done s)
    (hc : s.1.canActivate t p = true) (hf : s.1.activateFront fuel t = .ok b') :
    ∃ o, Activating b t p f (done ++ [o]) (b', true) := by
  have hl : Linked s.1.toBook := h.linked
  obtain ⟨key, l, i, w, b₁, b₂, ha⟩ := activateFront_activated hl hf
  have hp := ha.popped hl ht
  have hw := ha.deleted.order
  have hq := hp.stopOrders hl ht ha.first ha.front hw ha.levelIt
  have htr : Book.triggers t.side w.order.stopPrice p = true := by
    have hkey := (hl.stop_map hw (Order.isStopType_of_home? (hl.home hw)
      (by rw [ha.levelIt]; exact ht))).1
    rw [ha.levelIt] at hkey
    unfold Book.canActivate at hc
    rw [ha.first] at hc
    rw [← hkey]
    exact hc
  refine ⟨w.order, hp.linked, ?_, ?_, ?_, ?_, fun hs hne => ?_⟩
  · rw [h.queue, hq, List.append_assoc]
    rfl
  · intro o ho
    rcases List.mem_append.1 ho with ho | ho
    · exact h.triggered o ho
    · rw [List.mem_singleton.1 ho]
      exact htr
  · rw [hp.activations, h.activations, List.append_assoc]
  · simp
  · exact (hp.stopOrders_of_ne hl hw ha.levelIt hs hne).trans (h.others hs hne)

/-- An activation loop activates the orders of its map which the price it has captured triggers, in
the order of the map. -/
theorem activateLevels_activates (hl : Linked b.toBook) (ht : t.IsStop)
    (h : MapOrderBook.activateLevels fuel t p (b, f) = .ok s) :
    Activating b t p f (b.triggered t p) s := by
  have hturn (s s' : MapOrderBook × Bool) (hs : ∃ done, Activating b t p f done s)
      (hc : s.1.canActivate t p = true)
      (hb : (do return (← s.1.activateFront fuel t, true)) = Except.ok s') :
      ∃ done, Activating b t p f done s' := by
    obtain ⟨done, hs⟩ := hs
    obtain ⟨b₁, hf, hb⟩ := bind_eq_ok.1 hb
    cases hb
    obtain ⟨o, ho⟩ := hs.turn ht hc hf
    exact ⟨_, ho⟩
  obtain ⟨⟨done, hs⟩, hexit⟩ := whileLoop_inv hturn
    ⟨[], hl, rfl, fun _ h => (nomatch h), (List.append_nil _).symm, (Bool.or_false f).symm,
      fun _ _ => rfl⟩ h
  have hrest : (s.1.stopOrders t).filter (fun o => Book.triggers t.side o.stopPrice p) = [] := by
    refine List.filter_eq_nil_iff.2 fun o ho => ?_
    obtain ⟨key, hw⟩ := (mem_stopOrders hs.linked).1 ho
    have hst := Order.isStopType_of_home? (hs.linked.home hw) ht
    rw [Bool.not_eq_true]
    exact hs.linked.not_triggers hw hst hexit
  have hdone : b.triggered t p = done := by
    rw [Book.triggered, hs.queue, List.filter_append, hrest, List.append_nil]
    exact List.filter_eq_self.2 hs.triggered
  rw [hdone]
  exact hs

theorem Activating.triggered_trailing (h : Activating b t p f done s) (hs : t'.IsStop)
    (hne : t' ≠ t) (q : UInt64) : s.1.triggered t' q = b.triggered t' q := by
  rw [Book.triggered, h.others hs hne, Book.triggered]

/-- A pass over the bids or over the asks activates first the triggered stop orders and then the
triggered trailing orders, each group by the last price when its turn comes and in the order of the
book at the start, whatever trades the activations bring about. -/
theorem activates_in_order (h : RepInv b.toBook) (fuel : Nat) :
    (∀ t p, t.IsStop → InActivationOrder b.toBook t p (b.triggered t p)) ∧
    (∀ b' f, b.activateBidStopOrders fuel = .ok (b', f) → ∃ b₁ f₁,
      MapOrderBook.activateLevels fuel .stopBid b.lastTradedPriceAsk (b, false) = .ok (b₁, f₁) ∧
      activations b'.trace = activations b.trace ++ (b.triggered .stopBid b.lastTradedPriceAsk ++
        b.triggered .trailingStopBid b₁.lastTradedPriceAsk) ∧
      (f = true ↔ b.triggered .stopBid b.lastTradedPriceAsk ++
        b.triggered .trailingStopBid b₁.lastTradedPriceAsk ≠ [])) ∧
    ∀ b' f, b.activateAskStopOrders fuel = .ok (b', f) → ∃ b₁ f₁,
      MapOrderBook.activateLevels fuel .stopAsk b.lastTradedPriceBid (b, false) = .ok (b₁, f₁) ∧
      activations b'.trace = activations b.trace ++ (b.triggered .stopAsk b.lastTradedPriceBid ++
        b.triggered .trailingStopAsk b₁.lastTradedPriceBid) ∧
      (f = true ↔ b.triggered .stopAsk b.lastTradedPriceBid ++
        b.triggered .trailingStopAsk b₁.lastTradedPriceBid ≠ []) := by
  have hboth {t t' : LevelMap} {p q : UInt64} {b₁ b' : MapOrderBook} {f₁ f : Bool}
      (ht : t.IsStop) (ht' : t'.IsStop) (hne : t' ≠ t)
      (h₁ : MapOrderBook.activateLevels fuel t p (b, false) = .ok (b₁, f₁))
      (h₂ : MapOrderBook.activateLevels fuel t' q (b₁, f₁) = .ok (b', f)) :
      activations b'.trace = activations b.trace ++ (b.triggered t p ++ b.triggered t' q) ∧
        (f = true ↔ b.triggered t p ++ b.triggered t' q ≠ []) := by
    have ha := activateLevels_activates h.linked ht h₁
    have ha' := activateLevels_activates ha.linked ht' h₂
    have htr : b₁.triggered t' q = b.triggered t' q := ha.triggered_trailing ht' hne q
    rw [htr] at ha'
    constructor
    · rw [ha'.activations, ha.activations, List.append_assoc]
    · have hf : f = (!(b.triggered t p).isEmpty || !(b.triggered t' q).isEmpty) := by
        rw [show f = _ from ha'.flag, show f₁ = _ from ha.flag, Bool.false_or]
      rw [hf]
      cases b.triggered t p <;> cases b.triggered t' q <;> simp
  refine ⟨fun t p ht => inActivationOrder_triggered h.linked ht p, ?_, ?_⟩
  · intro b' f hr
    obtain ⟨⟨b₁, f₁⟩, h₁, h₂⟩ := bind_eq_ok.1 hr
    exact ⟨b₁, f₁, h₁, hboth ⟨nofun, nofun⟩ ⟨nofun, nofun⟩ nofun h₁ h₂⟩
  · intro b' f hr
    obtain ⟨⟨b₁, f₁⟩, h₁, h₂⟩ := bind_eq_ok.1 hr
    exact ⟨b₁, f₁, h₁, hboth ⟨nofun, nofun⟩ ⟨nofun, nofun⟩ nofun h₁ h₂⟩

/-- Two stop bids and a trailing one rest above an ask. -/
def risingStopOps : List Op :=
  [.addOrder (.new .limit .ask .gtc 1 100 0 0 5 1), .executeOrder 1 1,
    .addOrder (.new .stop .bid .ioc 1 0 110 0 1 2), .addOrder (.new .stop .bid .ioc 1 0 105 0 1 3),
    .addOrder (.new .trailingStop .bid .ioc 1 0 0 8 1 4)]

/-- At the price 120 the stop bids are activated, the lower one first. They trade at 100, so the
trailing one stays. -/
theorem activates_in_order_risingStopOps : ∃ b b' : MapOrderBook, ∃ f : Bool,
    (MapOrderBook.new 1).run 20 risingStopOps = .ok b ∧
    ({ b with lastTradedPrice := 120 } : MapOrderBook).activateBidStopOrders 20 = .ok (b', f) ∧
    (activations b'.trace).map Order.id = [3, 2] ∧ ∃ p : UInt64,
      activations b'.trace = activations b.trace ++
        (({ b with lastTradedPrice := 120 } : MapOrderBook).triggered .stopBid 120 ++
        ({ b with lastTradedPrice := 120 } : MapOrderBook).triggered .trailingStopBid p) := by
  obtain ⟨b, hb, hr, hf⟩ := exists_reachable_of_run Op.Legal 1 20 risingStopOps (by decide +kernel)
    (f := fun b => (({ b with lastTradedPrice := 120 } : MapOrderBook).activateBidStopOrders
      20).toOption.bind fun r => some ((activations r.1.trace).map Order.id)) (o := [3, 2])
    (by decide +kernel)
  obtain ⟨⟨b', f⟩, hact, hids⟩ := exists_of_run hf
  obtain ⟨b₁, f₁, _, hseq, _⟩ := (activates_in_order
    ((repInv_of_reachable hr).setPrice 120) 20).2.1 b' f hact
  exact ⟨b, b', f, hb, hact, Option.some.inj hids, _, hseq⟩

end RapidTrader
