import RapidTrader.Stages
import RapidTrader.Queues
import RapidTrader.Lib.Recency

namespace RapidTrader
open Lib
set_option autoImplicit true

/-- The last addition of `i` came before the last one of `j`. -/
def AddedBefore (trace : List Note) (i j : UInt64) : Prop := Before (additions trace) i j

instance (trace : List Note) (i j : UInt64) : Decidable (AddedBefore trace i j) :=
  inferInstanceAs (Decidable (Before _ _ _))

/-- The orders of each level of a map stand in it as they were added to the book. -/
def InOrder (b : MapOrderBook) (t : LevelMap) : Prop :=
  ∀ key, (b.queue ⟨t, key⟩).Pairwise (AddedBefore b.trace)

/-- When two trailing orders of a side are due the same stop price, the one added first does not
rest at the higher price. -/
def MergesInOrder (b : MapOrderBook) (side : OrderSide) : Prop :=
  ∀ i j w w', b.orders.find? i = some w → b.orders.find? j = some w' →
    w.levelIt.levels = trailingMap side → w'.levelIt.levels = trailingMap side →
    AddedBefore b.trace i j → b.newStopPrice w.order = b.newStopPrice w'.order →
    w.levelIt.key ≤ w'.levelIt.key

/-- Every resting order has been added. -/
def AllAdded (b : MapOrderBook) : Prop :=
  ∀ i w, b.orders.find? i = some w → i ∈ additions b.trace

/-! ### Re-levelling -/

theorem stopsAt_ids (b : Book) (ws : List OrderWrapper) (key : UInt64) :
    (b.stopsAt ws key).map Order.id =
      (ws.filter fun w => b.newStopPrice w.order = key).map fun w => w.order.id := by
  rw [Book.stopsAt, List.filter_map, List.map_map]
  rfl

/-- The walk over the old levels meets the orders from the lowest price on, and at one price in the
order of the level. -/
theorem InOrder.pairwise {b : MapOrderBook} {ws : List OrderWrapper} (h : Linked b.toBook)
    (ho : InOrder b t)
    (hids : (b.levels t).entries.flatMap (fun e => e.2.orders) = ws.map fun w => w.order.id)
    (hws : ∀ w ∈ ws, b.orders.find? w.order.id = some w) :
    ws.Pairwise fun w w' => w.levelIt.key < w'.levelIt.key ∨
      w.levelIt.key = w'.levelIt.key ∧ AddedBefore b.trace w.order.id w'.order.id := by
  have hkey {key l i w} (he : (key, l) ∈ (b.levels t).entries) (hi : i ∈ l.orders)
      (hw : b.orders.find? i = some w) : w.levelIt.key = key := by
    have hl : b.level? ⟨t, key⟩ = some l := SortedMap.find?_eq_some.2 he
    obtain ⟨w', hw', hit⟩ := h.owned hl hi
    rw [hw] at hw'
    cases hw'
    rw [hit]
  have hp : ((b.levels t).entries.flatMap fun e => e.2.orders).Pairwise fun i j =>
      ∀ w w', b.orders.find? i = some w → b.orders.find? j = some w' →
        w.levelIt.key < w'.levelIt.key ∨
          w.levelIt.key = w'.levelIt.key ∧ AddedBefore b.trace i j := by
    refine List.pairwise_flatMap.2 ⟨?_, ?_⟩
    · rintro ⟨key, l⟩ he
      have hl : b.level? ⟨t, key⟩ = some l := SortedMap.find?_eq_some.2 he
      have hkl := ho key
      rw [queue_of_level? hl] at hkl
      refine hkl.imp_of_mem ?_
      intro i j hi hj hij w w' hw hw'
      exact .inr ⟨(hkey he hi hw).trans (hkey he hj hw').symm, hij⟩
    · refine (b.levels t).sorted.imp_of_mem ?_
      rintro ⟨key, l⟩ ⟨key', l'⟩ he he' hlt i hi j hj w w' hw hw'
      rw [hkey he hi hw, hkey he' hj hw']
      exact .inl hlt
  rw [hids, List.pairwise_map] at hp
  exact hp.imp_of_mem fun hw hw' hq => hq _ _ (hws _ hw) (hws _ hw')

/-- Re-levelling keeps the orders in order exactly when it does not merge a later order into the
new level before an earlier one. -/
theorem Updated.inOrder_iff {b : MapOrderBook} (h : Linked b.toBook) (ha : AllAdded b)
    (ho : InOrder b (trailingMap side)) (hr : b.relevels side = true) (hu : Updated b side b') :
    InOrder (b'.remember side) (trailingMap side) ↔ MergesInOrder b side := by
  obtain ⟨ws, hws, hm⟩ := hu.moved hr
  have hfind (w) (hw : w ∈ ws) := ((hws w).1 hw).1
  have hadd : additions (b'.remember side).trace = additions b.trace := by
    rw [trace_remember, hu.plainly.additions]
  have hqueue (p : UInt64) : (b'.remember side).queue ⟨trailingMap side, p⟩ =
      (ws.filter fun w => b.newStopPrice w.order = p).map fun w => w.order.id := by
    rw [← stopsAt_ids]
    have hlevel : (b'.remember side).level? ⟨trailingMap side, p⟩ =
        if b.stopsAt ws p = [] then none
        else some ((Level.new p (trailingMap side).side b.symbolId).addOrders
          (b.stopsAt ws p)) := by
      rw [level?_remember, hm.levels, if_pos rfl]
      rfl
    by_cases hnil : b.stopsAt ws p = []
    · rw [if_pos hnil] at hlevel
      rw [queue_of_none hlevel, hnil, List.map_nil]
    · rw [if_neg hnil] at hlevel
      rw [queue_of_level? hlevel, Level.orders_addOrders]
      rfl
  have hasymm (w w' : OrderWrapper) (hij : AddedBefore b.trace w.order.id w'.order.id) :
      ¬ AddedBefore b.trace w'.order.id w.order.id := Before.asymm hij
  have htotal (w) (hw : w ∈ ws) (w') (hw' : w' ∈ ws) (hne : w ≠ w') :
      AddedBefore b.trace w.order.id w'.order.id ∨
        AddedBefore b.trace w'.order.id w.order.id := by
    refine before_or (ha _ _ (hfind w hw)) fun he => hne ?_
    have hf := hfind w hw
    rw [he, hfind w' hw'] at hf
    exact (Option.some.inj hf).symm
  have hafter : InOrder (b'.remember side) (trailingMap side) ↔ ∀ p, (ws.filter fun w =>
      b.newStopPrice w.order = p).Pairwise
        fun w w' => AddedBefore b.trace w.order.id w'.order.id := by
    unfold InOrder AddedBefore
    simp only [hadd, hqueue, List.pairwise_map]
  rw [hafter, rekeyed_iff hasymm htotal (ho.pairwise h hm.ids hfind)]
  constructor
  · intro hall i j w w' hw hw' ht ht' hij hp
    have hid := h.id hw
    have hid' := h.id hw'
    refine hall w ((hws w).2 ⟨hid.symm ▸ hw, ht⟩) w' ((hws w').2 ⟨hid'.symm ▸ hw', ht'⟩) ?_ hp
    rw [hid, hid']
    exact hij
  · intro hmerge w hw w' hw' hij hp
    obtain ⟨hf, ht⟩ := (hws w).1 hw
    obtain ⟨hf', ht'⟩ := (hws w').1 hw'
    exact hmerge _ _ w w' hf hf' ht ht' hij hp

/-! ### Everything else -/

/-- No order is added, and the queues of stop orders lose orders at most. -/
structure Sifted (b b' : MapOrderBook) : Prop where
  additions : additions b'.trace = additions b.trace
  rests : b'.orders.find? i ≠ none → b.orders.find? i ≠ none
  queues : it.levels.IsStop → (b'.queue it).Sublist (b.queue it)

/-- The order `i` is added, and may join a queue at its end. -/
structure Joined (b : MapOrderBook) (i : UInt64) (b' : MapOrderBook) : Prop where
  additions : additions b'.trace = additions b.trace ++ [i]
  rests : b'.orders.find? k ≠ none → k = i ∨ b.orders.find? k ≠ none
  queues : it.levels.IsStop → b'.queue it = b.queue it ∨ b'.queue it = b.queue it ++ [i]

theorem AllAdded.mem {b : MapOrderBook} (ha : AllAdded b) (hi : b.orders.find? i ≠ none) :
    i ∈ additions b.trace := by
  obtain ⟨w, hw⟩ := Option.ne_none_iff_exists'.1 hi
  exact ha i w hw

theorem AllAdded.sifted {b : MapOrderBook} (ha : AllAdded b) (hs : Sifted b b') : AllAdded b' := by
  intro i w hw
  rw [hs.additions]
  exact ha.mem (hs.rests (by rw [hw]; exact Option.some_ne_none w))

theorem AllAdded.joined {b : MapOrderBook} (ha : AllAdded b) (hj : Joined b i b') :
    AllAdded b' := by
  intro k w hw
  rw [hj.additions, List.mem_append, List.mem_singleton]
  rcases hj.rests (by rw [hw]; exact Option.some_ne_none w) with hk | hk
  · exact .inr hk
  · exact .inl (ha.mem hk)

theorem InOrder.sifted (ho : InOrder b t) (ht : t.IsStop) (hs : Sifted b b') :
    InOrder b' t := by
  intro key
  unfold AddedBefore
  rw [hs.additions]
  exact (ho key).sublist (hs.queues ht)

/-- An order joins its queue as the last one that has been added. -/
theorem InOrder.joined {b : MapOrderBook} (ho : InOrder b t) (ht : t.IsStop)
    (h : Linked b.toBook) (hn : b.orders.find? i = none) (hj : Joined b i b') : InOrder b' t := by
  intro key
  unfold AddedBefore
  rw [hj.additions]
  have hi : i ∉ b.queue ⟨t, key⟩ := h.not_mem_queue hn
  have hqueue : b'.queue ⟨t, key⟩ = b.queue ⟨t, key⟩ ∨
      b'.queue ⟨t, key⟩ = b.queue ⟨t, key⟩ ++ [i] := hj.queues ht
  rcases hqueue with hq | hq
  · rw [hq]
    exact pairwise_before (ho key) hi
  · rw [hq]
    exact pairwise_before_concat (pairwise_before (ho key) hi) hi

theorem Deleted.sifted {b b' : MapOrderBook} (h : Linked b.toBook) (hd : Deleted b i w l n b') :
    Sifted b b' := by
  refine ⟨?_, fun {k} hk => ?_, fun {it} _ => ?_⟩
  · have hp : Plainly b.trace b'.trace := by
      rw [hd.trace]
      split
      · exact .single _ ⟨rfl, rfl⟩
      · rw [List.append_nil]
        exact .refl _
    exact hp.additions
  · rw [hd.find?_orders] at hk
    split at hk
    · exact absurd rfl hk
    · exact hk
  · rw [hd.queue h]
    exact List.filter_sublist

theorem Changed.sifted {b b' : MapOrderBook} (h : Linked b.toBook) (ht : w.order.SameTerms o)
    (hc : Changed b i w l o q p ns b') (hns : Plainly b.trace ns) : Sifted b b' := by
  refine ⟨?_, fun {k} hk => ?_, fun {it} _ => ?_⟩
  · have hp : Plainly ns b'.trace := by
      rw [hc.trace]
      split
      · exact .single _ ⟨rfl, rfl⟩
      · rw [List.append_nil]
        exact .refl _
    exact (hns.trans hp).additions
  · rw [hc.find?_orders] at hk
    split at hk
    · rename_i hki
      rw [hki, hc.order]
      exact Option.some_ne_none w
    · exact hk
  · rw [hc.queue h ht]
    split
    · exact List.filter_sublist
    · exact List.Sublist.refl _

/-- An activated order leaves its queue. -/
theorem Popped.sifted {b b' : MapOrderBook} (hl : b.level? ⟨t, key⟩ = some l)
    (hp : Popped t b key l i w b') : Sifted b b' := by
  refine ⟨hp.additions, hp.rests, fun {it} ht => ?_⟩
  have hlev := hp.stopLevels (w := w) ht
  by_cases hit : it = ⟨t, key⟩
  · rw [if_pos hit] at hlev
    rw [hit, queue_of_level? hl, ← hit]
    split at hlev
    · rw [queue_of_none hlev]
      exact List.nil_sublist _
    · rw [queue_of_level? hlev]
      exact List.erase_sublist
  · rw [if_neg hit] at hlev
    rw [Book.queue, hlev]
    exact List.Sublist.refl _

/-- A filled order leaves the stop orders alone. -/
theorem Filled.joined {b b₀ b' : MapOrderBook} (hf : Filled b₀ o b') (he : b₀.toBook = b.toBook)
    (ha : additions b₀.trace = additions b.trace ++ [i]) (hi : o.id = i) : Joined b i b' := by
  refine ⟨hf.trace.additions.trans ha, fun {k} hk => ?_, fun {it} ht => .inl ?_⟩
  · obtain ⟨w, hw⟩ := Option.ne_none_iff_exists'.1 hk
    rcases hf.rests hw with ⟨w₀, hw₀, _⟩ | ⟨hk, _⟩
    · right
      rw [← he, hw₀]
      exact Option.some_ne_none w₀
    · exact .inl (hk.trans hi)
  · rw [Book.queue, hf.stopLevels ht, he, Book.queue]

theorem additions_emit_orderAdded (b : MapOrderBook) (o : Order) :
    additions (b.emit (.orderAdded o)).trace = additions b.trace ++ [o.id] := by
  rw [trace_emit, additions_append]
  rfl

theorem Submission.joined {b : MapOrderBook} (hi : Inv ⟨b, none⟩)
    (ho : Proper b.toBook (.submit o)) (hs : Submission fuel b o x) (hx : x = .ok b') :
    Joined b o.id b' := by
  have hadd : Inv ⟨b.emit (.orderAdded o), some o⟩ := hi.step (.added ho)
  have hannounced := additions_emit_orderAdded b o
  cases hs with
  | matched hm => exact (fill_filled hadd.consistent hm hx).joined rfl hannounced rfl
  | triggered hst htr =>
    have hst' := (isStopType_arriving b.toBook o).2 hst
    have hact := hadd.arriving.step (.triggered hst' htr)
    refine (fill_filled hact.consistent (Order.activate_isMatchable hst') hx).joined rfl ?_
      (id_arriving b.toBook o)
    rw [trace_emit, additions_append, hannounced]
    exact List.append_nil _
  | waits hst _ _ hins =>
    cases hx
    have hid := id_arriving b.toBook o
    refine ⟨by rw [hins.trace, hannounced], fun {k} hk => ?_, fun {it} _ => ?_⟩
    · rw [hins.find?_orders, hid] at hk
      split at hk
      · exact .inl ‹_›
      · exact .inr hk
    · rw [hins.queue, hid]
      split
      · exact .inr rfl
      · exact .inl rfl

/-- An update leaves all queues alone that it does not re-level. -/
theorem Updated.queue_of_not {b b' : MapOrderBook} (hu : Updated b side b')
    (hn : b.relevels side = true → it.levels ≠ trailingMap side) : b'.queue it = b.queue it := by
  cases hr : b.relevels side with
  | false =>
    rw [hu.skipped hr]
    rfl
  | true =>
    obtain ⟨ws, _, hm⟩ := hu.moved hr
    rw [Book.queue, hm.levels, if_neg (hn hr)]
    rfl

/-! ### Runs -/

/-- Every re-levelling that a trace tells of merges in order. -/
def WellMerged (trace : List Note) : Prop :=
  ∀ told rest side before, trace = told ++ .updating side before :: rest →
    before.relevels side = true → MergesInOrder ⟨before, told⟩ side

theorem WellMerged.mono (h : WellMerged trace') (hs : trace <+: trace') : WellMerged trace := by
  obtain ⟨ns, rfl⟩ := hs
  intro told rest side before he hr
  refine h told (rest ++ ns) side before ?_ hr
  rw [he, List.append_assoc, List.cons_append]

/-- What holds between the stages of a run. -/
structure Prioritized (b : MapOrderBook) : Prop where
  added : AllAdded b
  inOrder : WellMerged b.trace → t.IsTrailing → InOrder b t

theorem Prioritized.sifted (h : Prioritized b) (hp : b.trace <+: b'.trace) (hs : Sifted b b') :
    Prioritized b' :=
  ⟨h.added.sifted hs, fun hm ht => (h.inOrder (hm.mono hp) ht).sifted ht.isStop hs⟩

theorem Updated.prioritized {b b' : MapOrderBook} (hi : Inv ⟨b, none⟩) (h : Prioritized b)
    (hp : b.trace <+: b'.trace) (hu : Updated b side b') : Prioritized (b'.remember side) := by
  have hadd : additions (b'.remember side).trace = additions b.trace := by
    rw [trace_remember, hu.plainly.additions]
  have hqueue (it : LevelIt) : (b'.remember side).queue it = b'.queue it := by
    rw [Book.queue, level?_remember, Book.queue]
  refine ⟨fun i w' hw' => ?_, fun {t} hm ht => ?_⟩
  · obtain ⟨w, hw, _⟩ := hu.find?_cases hw'
    rw [hadd]
    exact h.added i w hw
  · rw [trace_remember] at hm
    have ho := h.inOrder (hm.mono hp) ht
    by_cases hmoved : b.relevels side = true ∧ t = trailingMap side
    · obtain ⟨hr, rfl⟩ := hmoved
      obtain ⟨ws, _, hrel⟩ := hu.moved hr
      have htold : b'.trace = b.trace ++ .updating side b.toBook :: ws.map fun w =>
          .event
            (.orderUpdated ((b.note (.updating side b.toBook)).calculateStopPrice w.order)) := by
        rw [hrel.trace, trace_note, List.append_assoc]
        rfl
      exact (hu.inOrder_iff hi.linked h.added ho hr).2 (hm _ _ _ _ htold hr)
    · intro key
      rw [hqueue, hu.queue_of_not fun hr ht => hmoved ⟨hr, ht⟩]
      unfold AddedBefore
      rw [hadd]
      exact ho key

/-- What a stage does to the queues of stop orders. -/
theorem Stage.shifted (hi : Inv ⟨b, none⟩) (hs : Stage b b') : Sifted b b' ∨
    (∃ i, b.orders.find? i = none ∧ Joined b i b') ∨
    ∃ side b₁, Updated b side b₁ ∧ b' = b₁.remember side := by
  cases hs with
  | submitted ho hsub =>
    exact .inr (.inl ⟨_, ho.1, (submitOrder_submission ho.1).joined hi ho hsub⟩)
  | activated ht _ ha =>
    obtain ⟨key, l, i, w, b₁, b₂, ha⟩ := activateFront_activated hi.linked ha
    exact .inl ((ha.popped hi.linked ht).sifted (firstStop_eq_some ha.first))
  | updated hu =>
    obtain ⟨b₁, hb₁, hu'⟩ := updateStopOrders_updated hi.linked _
    rw [hu] at hb₁
    cases hb₁
    exact .inr (.inr ⟨_, b₁, hu', rfl⟩)
  | executed hx =>
    obtain ⟨w, l, hc⟩ := executeResting_changed hx
    exact .inl (hc.sifted hi.linked (.execute _ _ _) (.single _ ⟨rfl, rfl⟩))
  | cancelled hx =>
    obtain ⟨w, l, hc⟩ := cancelResting_changed hx
    exact .inl (hc.sifted hi.linked (.setQuantity _ _) (.single _ ⟨rfl, rfl⟩))
  | deleted hx =>
    obtain ⟨w, l, hd⟩ := deleteOrderWith_deleted hx
    exact .inl (hd.sifted hi.linked)

theorem Stage.prioritized (hi : Inv ⟨b, none⟩) (h : Prioritized b) (hs : Stage b b') :
    Prioritized b' := by
  have hp := hs.trace_prefix hi
  rcases hs.shifted hi with hs | ⟨i, hn, hj⟩ | ⟨side, b₁, hu, rfl⟩
  · exact h.sifted hp hs
  · exact ⟨h.added.joined hj, fun hm ht =>
      (h.inOrder (hm.mono hp) ht).joined ht.isStop hi.linked hn hj⟩
  · rw [trace_remember] at hp
    exact hu.prioritized hi h hp

theorem Stages.prioritized (h : Reachable Op.Legal symbolId b) (hs : Stages b b') :
    Inv ⟨b', none⟩ ∧ Prioritized b' := by
  refine Stages.induct (fun hi h hs => hs.prioritized hi h) h.inv ?_ hs
  refine h.stage_induct ⟨fun _ _ hw => (nomatch hw), fun {t} _ ht key => ?_⟩
    fun hi h hs => hs.prioritized hi h
  have hnil : (MapOrderBook.new symbolId).queue ⟨t, key⟩ = [] := by
    rcases ht with rfl | rfl <;> rfl
  rw [hnil]
  exact .nil

/-- What an activation does to trailing orders in order: it takes the one added first among those of
its stop price. -/
def ActivatesEarliest (b : MapOrderBook) (t : LevelMap) (b' : MapOrderBook) : Prop :=
  ∃ w, b.orders.find? w.order.id = some w ∧ w.levelIt.levels = t ∧
    activations b'.trace = activations b.trace ++ [w.order] ∧
    ∀ i w', b.orders.find? i = some w' → w'.levelIt.levels = t →
      w'.order.stopPrice = w.order.stopPrice → i ≠ w.order.id → AddedBefore b.trace w.order.id i

theorem InOrder.activatesEarliest (h : Linked b.toBook) (ho : InOrder b t) (ht : t.IsStop)
    (hf : b.activateFront fuel t = .ok b') : ActivatesEarliest b t b' := by
  obtain ⟨key, l, i, w, b₁, b₂, ha⟩ := activateFront_activated h hf
  have hw := ha.deleted.order
  have hid := h.id hw
  have hkey {i w} (hw : b.orders.find? i = some w) (hlev : w.levelIt.levels = t) :
      w.levelIt.key = w.order.stopPrice :=
    (h.stop_map hw (Order.isStopType_of_home? (h.home hw) (by rw [hlev]; exact ht))).1
  have hlev : w.levelIt.levels = t := by rw [ha.levelIt]
  refine ⟨w, by rw [hid, hw], hlev, (ha.popped h ht).activations, fun i' w' hw' hlev' hp hne => ?_⟩
  have hit' : w'.levelIt = ⟨t, key⟩ := by
    have hk' := hkey hw' hlev'
    rw [hp, ← hkey hw hlev, ha.levelIt] at hk'
    cases hwl : w'.levelIt with
    | mk t' key' =>
      rw [hwl] at hlev' hk'
      rw [show t' = t from hlev', show key' = key from hk']
  obtain ⟨l', hl', hi'⟩ := h.held hw'
  have hl := firstStop_eq_some ha.first
  rw [hit', hl] at hl'
  cases hl'
  obtain ⟨is, his⟩ : ∃ is, l.orders = i :: is := List.head?_eq_some_iff.1 ha.front
  have hq := ho key
  rw [queue_of_level? hl, his] at hq
  rw [his] at hi'
  rw [hid] at hne ⊢
  exact (List.pairwise_cons.1 hq).1 i' ((List.mem_cons.1 hi').resolve_left hne)

/-- In a run whose re-levellings all merge in order, trailing orders stand in order between any two
stages of any operation, and are activated in order. The next re-levelling keeps them so exactly
when it merges in order, too. -/
theorem trailing_in_order (h : Reachable Op.Legal symbolId b) (hs : Stages b b')
    (hm : WellMerged b'.trace) :
    (∀ t, t.IsTrailing → InOrder b' t ∧
      ∀ fuel b'', b'.activateFront fuel t = .ok b'' → ActivatesEarliest b' t b'') ∧
    ∀ side b'', b'.relevels side = true → b'.updateStopOrders side = .ok b'' →
      (InOrder b'' (trailingMap side) ↔ MergesInOrder b' side) := by
  obtain ⟨hi, hp⟩ := hs.prioritized h
  refine ⟨fun t ht => ?_, fun side b'' hr hu => ?_⟩
  · have ho := hp.inOrder hm ht
    exact ⟨ho, fun fuel b'' hf => ho.activatesEarliest hi.linked ht.isStop hf⟩
  · obtain ⟨b₁, hb₁, hu'⟩ := updateStopOrders_updated hi.linked side
    rw [hu] at hb₁
    cases hb₁
    have ht : (trailingMap side).IsTrailing := by
      cases side with
      | ask => exact .inl rfl
      | bid => exact .inr rfl
    exact hu'.inOrder_iff hi.linked hp.added (hp.inOrder hm ht) hr

instance (b : MapOrderBook) (side : OrderSide) : Decidable (MergesInOrder b side) :=
  decidable_of_iff (∀ e ∈ b.orders.entries, ∀ e' ∈ b.orders.entries,
    e.2.levelIt.levels = trailingMap side → e'.2.levelIt.levels = trailingMap side →
    AddedBefore b.trace e.1 e'.1 → b.newStopPrice e.2.order = b.newStopPrice e'.2.order →
    e.2.levelIt.key ≤ e'.2.levelIt.key)
    ⟨fun h i j w w' hw hw' => h (i, w) (SortedMap.find?_eq_some.1 hw) (j, w')
      (SortedMap.find?_eq_some.1 hw'),
     fun h e he e' he' => h e.1 e'.1 e.2 e'.2 (SortedMap.find?_eq_some.2 he)
      (SortedMap.find?_eq_some.2 he')⟩

/-- Whether a note tells of a re-levelling that merges in order, if it tells of one. -/
def Note.mergesInOrder (told : List Note) : Note → Bool
  | .updating side before => !before.relevels side || decide (MergesInOrder ⟨before, told⟩ side)
  | _ => true

/-- Whether every re-levelling that the trace of a book tells of merges in order. -/
def MapOrderBook.mergedInOrder (b : MapOrderBook) : Bool :=
  (List.range b.trace.length).all fun n =>
    (b.trace : List Note)[n]?.all (Note.mergesInOrder (b.trace.take n))

theorem wellMerged_of_all {b : MapOrderBook} (h : b.mergedInOrder = true) :
    WellMerged b.trace := by
  intro told rest side before he hr
  unfold MapOrderBook.mergedInOrder at h
  rw [he] at h
  have hn : told.length ∈ List.range (told ++ Note.updating side before :: rest).length := by
    rw [List.mem_range, List.length_append, List.length_cons]
    omega
  have hm := List.all_eq_true.1 h _ hn
  rw [List.getElem?_append_right (Nat.le_refl _), Nat.sub_self, List.getElem?_cons_zero,
    List.take_left, Option.all_some] at hm
  simpa [Note.mergesInOrder, hr] using hm

/-- Two trailing bids that are added at the market prices 110 and 115. -/
def twoBidsOps : List Op :=
  [.addOrder (.new .limit .ask .gtc 1 90 0 0 100 1), .executeOrderAt 1 1 110,
    .addOrder (.new .trailingStop .bid .ioc 1 0 0 10 5 2), .executeOrderAt 1 1 115,
    .addOrder (.new .trailingStop .bid .ioc 1 0 0 10 5 3)]

/-- An execution at 105 takes both of them from their levels at 120 and 125 to the one at 115. -/
theorem trailing_in_order_twoBidsOps : ∃ b b' b'' : MapOrderBook,
    (MapOrderBook.new 1).run 20 twoBidsOps = .ok b ∧
    b.executeResting 1 1 (fun _ => 105) = .ok b' ∧ b'.updateStopOrders .bid = .ok b'' ∧
    InOrder b' .trailingStopBid ∧ InOrder b'' .trailingStopBid ∧
    b''.queue ⟨.trailingStopBid, 115⟩ = [2, 3] := by
  obtain ⟨b, hb, hr, hf⟩ := exists_reachable_of_run Op.Legal 1 20 twoBidsOps (by decide +kernel)
    (f := fun b => (b.executeResting 1 1 (fun _ => 105)).toOption.bind fun b' =>
      (b'.updateStopOrders .bid).toOption.bind fun b'' =>
        some (b'.mergedInOrder, b'.relevels .bid, decide (MergesInOrder b' .bid),
          b''.queue ⟨.trailingStopBid, 115⟩))
    (o := (true, true, true, [2, 3])) (by decide +kernel)
  obtain ⟨b', hb', hf⟩ := exists_of_run hf
  obtain ⟨b'', hb'', hf⟩ := exists_of_run hf
  simp only [Option.some.injEq, Prod.mk.injEq, decide_eq_true_eq] at hf
  obtain ⟨hm, hrel, hmerge, hq⟩ := hf
  obtain ⟨hin, hnext⟩ :=
    trailing_in_order hr (.single (.executed hb')) (wellMerged_of_all hm)
  exact ⟨b, b', b'', hb, hb', hb'', (hin _ (.inr rfl)).1, (hnext .bid b'' hrel hb'').2 hmerge, hq⟩

/-- Two trailing asks that are added at the market prices 110 and 105, and come together at 98 when
the market is at 108. -/
def twoTrailingAsksOps : List Op :=
  [.addOrder (.new .limit .bid .gtc 1 200 0 0 100 1), .executeOrderAt 1 1 110,
    .addOrder (.new .trailingStop .ask .ioc 1 0 0 10 5 2), .executeOrderAt 1 1 105,
    .addOrder (.new .trailingStop .ask .ioc 1 0 0 10 5 3), .executeOrderAt 1 1 108]

/-- The ask that was added later stands first, and is the first one to be activated. -/
theorem twoTrailingAsksOps_not_in_order : ∃ b b' : MapOrderBook, Reachable Op.Legal 1 b ∧
    b.queue ⟨.trailingStopAsk, 98⟩ = [3, 2] ∧ AddedBefore b.trace 2 3 ∧
    ¬ InOrder b .trailingStopAsk ∧ Op.Legal b.toBook (.executeOrderAt 1 1 98) ∧
    MapOrderBook.apply 20 b (.executeOrderAt 1 1 98) = .ok b' ∧
    (activations b'.trace).map Order.id = (activations b.trace).map Order.id ++ [3, 2] := by
  obtain ⟨b, b', _, hr, hop, hb', hf⟩ := exists_last_of_run Op.Legal 1 20 twoTrailingAsksOps
    (.executeOrderAt 1 1 98) (by decide +kernel)
    (f := fun b b' => some (b.queue ⟨.trailingStopAsk, 98⟩, decide (AddedBefore b.trace 2 3),
      (activations b.trace).map Order.id, (activations b'.trace).map Order.id))
    (o := ([3, 2], true, [], [3, 2])) (by decide +kernel)
  simp only [Option.some.injEq, Prod.mk.injEq, decide_eq_true_eq] at hf
  obtain ⟨hq, hadd, hact, hact'⟩ := hf
  refine ⟨b, b', hr, hq, hadd, fun ho => ?_, hop, hb', by rw [hact, hact', List.nil_append]⟩
  have hp := ho 98
  rw [hq] at hp
  exact Before.asymm hadd ((List.pairwise_cons.1 hp).1 2 (List.mem_singleton_self 2))

end RapidTrader
