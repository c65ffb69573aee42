import RapidTrader.Matching

namespace RapidTrader
open Lib Relation
set_option autoImplicit true

/-- The engine as its orders see it: the live orders, which rest or are in hand, the id of the one
in hand, and the last price. -/
@[ext] structure View where
  live : UInt64 → Option Order
  hand : Option UInt64
  price : UInt64

namespace View

def set (v : View) (i : UInt64) (o? : Option Order) : View :=
  { v with live := fun j => if j = i then o? else v.live j }

@[simp] theorem live_set (v : View) (i j : UInt64) (o? : Option Order) :
    (v.set i o?).live j = if j = i then o? else v.live j := rfl

@[simp] theorem hand_set (v : View) (i : UInt64) (o? : Option Order) :
    (v.set i o?).hand = v.hand := rfl

@[simp] theorem price_set (v : View) (i : UInt64) (o? : Option Order) :
    (v.set i o?).price = v.price := rfl

end View

def Config.view (c : Config) : View where
  live i := match c.working with
    | some o => if i = o.id then some o else c.book.resting i
    | none => c.book.resting i
  hand := c.working.map Order.id
  price := c.book.lastTradedPrice

/-- An event or a trade. -/
def Note.IsLoud : Note → Prop
  | .event _ | .trade _ _ _ _ => True
  | .matching _ _ | .activated _ _ | .updating _ _ => False

/-- The book that a mark shows. -/
def Note.shown : Note → Option Book
  | .matching _ b | .activated _ b | .updating _ b => some b
  | .event _ | .trade _ _ _ _ => none

/-- A bid and an ask that trade `quantity` at `price`. One of them is in hand, the other is a limit
order which rests at that price. -/
structure Trade (v : View) (bid ask : Order) (price quantity : UInt64) : Prop where
  bidLive : v.live bid.id = some bid
  askLive : v.live ask.id = some ask
  ne : bid.id ≠ ask.id
  bidSide : bid.side = .bid
  askSide : ask.side = .ask
  ask_le : ask.price ≤ price
  le_bid : price ≤ bid.price
  resting : (v.hand = some bid.id ∧ bid.IsMatchable ∧ ask.type = .limit ∧ ask.price = price) ∨
    (v.hand = some ask.id ∧ ask.IsMatchable ∧ bid.type = .limit ∧ bid.price = price)
  price_ne : price ≠ 0
  quantity_ne : quantity ≠ 0
  quantity_le_bid : quantity ≤ bid.openQuantity
  quantity_le_ask : quantity ≤ ask.openQuantity

/-- What can happen to the live orders, with all that the trace tells of it. -/
inductive Act (Adm : Book → Request → Prop) : View → List Note → View → Prop
  | quiet : ¬ n.IsLoud → (∀ b, n.shown = some b → b.lastTradedPrice = v.price) → Act Adm v [n] v
  | added : v.hand = none → v.live o.id = none → Adm b (.submit o) → b.lastTradedPrice = v.price →
      Act Adm v [.event (.orderAdded o)] { v.set o.id (some o) with hand := some o.id }
  | priced : v.hand = some o.id → v.live o.id = some o → o.type = .market →
      Act Adm v [] (v.set o.id (some (o.setPrice p)))
  | trailed {b : Book} : v.hand = some o.id → v.live o.id = some o → o.IsTrailing →
      b.lastTradedPrice = v.price → Act Adm v [] (v.set o.id (some (b.calculateStopPrice o)))
  | activated : v.hand = none ∨ v.hand = some o.id → v.live o.id = some o → o.IsStopType →
      Act Adm v [.event (.orderUpdated o.activate)]
        { v.set o.id (some o.activate) with hand := some o.id }
  | rested {b : Book} : v.hand = some o.id → v.live o.id = some o → o.type ≠ .market →
      b.lastTradedPrice = v.price →
      (o.IsTrailing → o = b.calculateStopPrice o ∧ b.stopTriggered o = false) →
      Act Adm v [] { v with hand := none }
  | traded : Trade v bid ask p q →
      Act Adm v [.trade bid.id ask.id p q, .event (.executedOrder (bid.execute p q)),
          .event (.executedOrder (ask.execute p q))]
        { (v.set bid.id (some (bid.execute p q))).set ask.id (some (ask.execute p q)) with
          price := p }
  | moved {b : Book} : v.hand = none → v.live o.id = some o → o.IsTrailing →
      b.lastTradedPrice = v.price →
      Act Adm v [.event (.orderUpdated (b.calculateStopPrice o))]
        (v.set o.id (some (b.calculateStopPrice o)))
  | executed {b : Book} : v.hand = none → v.live o.id = some o → b.resting o.id = some o →
      Adm b (.execute o.id q price) →
      Act Adm v [.event (.executedOrder (o.execute (price o) (min q o.openQuantity)))]
        { v.set o.id (some (o.execute (price o) (min q o.openQuantity))) with price := price o }
  | cancelled {b : Book} : v.hand = none → v.live o.id = some o → Adm b (.cancel o.id q) →
      Act Adm v [.event (.orderUpdated (o.setQuantity q))]
        (v.set o.id (some (o.setQuantity q)))
  | deleted : v.live o.id = some o → Act Adm v [.event (.orderDeleted o)]
      { v.set o.id none with hand := if v.hand = some o.id then none else v.hand }

/-- A sequence of acts, and the notes they add to the trace. -/
inductive Acts (Adm : Book → Request → Prop) (v : View) : List Note → View → Prop
  | nil : Acts Adm v [] v
  | snoc : Acts Adm v ns v' → Act Adm v' ms v'' → Acts Adm v (ns ++ ms) v''

theorem Acts.single (h : Act Adm v ns v') : Acts Adm v ns v' := by
  have := Acts.nil.snoc h
  rwa [List.nil_append] at this

theorem Acts.trans (h : Acts Adm v ns v') (h' : Acts Adm v' ms v'') :
    Acts Adm v (ns ++ ms) v'' := by
  induction h' with
  | nil =>
    rw [List.append_nil]
    exact h
  | snoc _ ha ih =>
    rw [← List.append_assoc]
    exact ih.snoc ha

/-- What every act preserves, any sequence of acts preserves. -/
theorem Acts.induct {J : View → List Note → Prop}
    (hact : ∀ {v ns v' t}, J v t → Act Adm v ns v' → J v' (t ++ ns)) (hj : J v t)
    (h : Acts Adm v ns v') : J v' (t ++ ns) := by
  induction h with
  | nil =>
    rw [List.append_nil]
    exact hj
  | snoc _ ha ih =>
    rw [← List.append_assoc]
    exact hact ih ha

/-- Induction from the first act on. -/
theorem Acts.head_induct {P : View → List Note → Prop} (hnil : P v' [])
    (hcons : ∀ {v ns v₁ ms}, Act Adm v ns v₁ → P v₁ ms → P v (ns ++ ms))
    (h : Acts Adm v ns v') : P v ns := by
  induction h generalizing P with
  | nil => exact hnil
  | @snoc ns v₁ ms v₂ h ha ih =>
    apply ih (P := fun v ns => P v (ns ++ ms))
    · have := hcons ha hnil
      rwa [List.append_nil] at this
    · intro v ns v₁ ms' ha' hP
      rw [List.append_assoc]
      exact hcons ha' hP

/-! ### Steps are acts -/

theorem Config.view_none (b : MapOrderBook) :
    Config.view ⟨b, none⟩ = ⟨b.resting, none, b.lastTradedPrice⟩ := rfl

theorem Config.view_some (b : MapOrderBook) (o : Order) :
    Config.view ⟨b, some o⟩ =
      ⟨fun i => if i = o.id then some o else b.resting i, some o.id, b.lastTradedPrice⟩ := rfl

theorem Book.resting_of_find? {b : Book} (h : b.orders.find? i = some w) :
    b.resting i = some w.order := by
  rw [resting, h]
  rfl

theorem Deleted.resting (h : Deleted b i w l n b') (k : UInt64) :
    b'.resting k = if k = i then none else b.resting k := by
  unfold Book.resting
  rw [h.find?_orders]
  split <;> rfl

theorem Inserted.resting (h : Inserted b it o b') (k : UInt64) :
    b'.resting k = if k = o.id then some o else b.resting k := by
  unfold Book.resting
  rw [h.find?_orders]
  split <;> rfl

theorem Changed.resting (h : Changed b i w l o amount price notes b') (k : UInt64) :
    b'.resting k = if k = i then if o.isFilled then none else some o else b.resting k := by
  unfold Book.resting
  rw [h.find?_orders]
  split
  · cases o.isFilled <;> rfl
  · rfl

/-- An order in hand comes to rest. -/
theorem Inserted.view (h : Inserted b it o b') :
    Config.view ⟨b', none⟩ = { Config.view ⟨b, some o⟩ with hand := none } := by
  rw [Config.view_none, Config.view_some, h.prices.lastTradedPrice]
  ext1
  · funext i
    exact h.resting i
  · rfl
  · rfl

/-- The order that is worked on is live and in hand. -/
theorem Config.view_hand (b : MapOrderBook) (o : Order) :
    (Config.view ⟨b, some o⟩).hand = some o.id ∧ (Config.view ⟨b, some o⟩).live o.id = some o :=
  ⟨rfl, if_pos rfl⟩

/-- A filled order that has just changed is deleted. -/
theorem Acts.settle {v₁ : View} (h : Acts Adm v ns v₁) (hl : v₁.live o.id = some o)
    (hne : v₁.hand ≠ some o.id) :
    Acts Adm v (ns ++ if o.isFilled then [.event (.orderDeleted o)] else [])
      (v₁.set o.id (if o.isFilled then none else some o)) := by
  split
  · have hd := h.snoc (.deleted hl)
    rw [if_neg hne] at hd
    exact hd
  · have he : v₁.set o.id (some o) = v₁ := by
      ext1
      · funext i
        rw [View.live_set]
        split
        · rename_i hi
          rw [hi, hl]
        · rfl
      · rfl
      · rfl
    rw [List.append_nil, he]
    exact h

/-- The view with a new order in hand. -/
theorem Config.view_rehand (b : MapOrderBook) (h : o'.id = o.id) :
    Config.view ⟨b, some o'⟩ = (Config.view ⟨b, some o⟩).set o.id (some o') := by
  rw [Config.view_some, Config.view_some, h]
  ext1
  · funext i
    rw [View.live_set]
    dsimp only
    split <;> rfl
  · rfl
  · rfl

/-- A turn of the loops of `match` is a trade, whichever side is in hand. -/
theorem Traded.act (Adm : Book → Request → Prop) (hi : Inv ⟨b, some o⟩) (ho : o.IsMatchable)
    (hc : b.canTrade o = true) (ht : Traded b o key l i w b' o') : w.order.id = i ∧ i ≠ o.id ∧
      ∃ v, v.hand = some o.id ∧ v.price = w.order.price ∧
        (∀ j, v.live j = if j = i then some (w.order.execute w.order.price (matched o w.order))
          else if j = o.id then some (o.execute w.order.price (matched o w.order))
          else b.resting j) ∧
        Act Adm (Config.view ⟨b, some o⟩)
          (tradeNotes (o.execute w.order.price (matched o w.order))
            (w.order.execute w.order.price (matched o w.order)) w.order.price
            (matched o w.order)) v := by
  obtain ⟨_, key', l', hb, hcr⟩ := canTrade_eq_true hc
  rw [ht.best] at hb
  cases hb
  have hl : Linked b.toBook := hi.linked
  have hw := ht.changed.order
  obtain ⟨i', w', hfr, hw', hit, hid, _⟩ := hl.front (bestOpposite_eq_some ht.best).1
  rw [ht.front] at hfr
  cases hfr
  rw [hw] at hw'
  cases hw'
  subst hid
  have hprice := hl.price_of_opposite hw hit
  have hlim := (hl.opposite_iff hw o.side).2 (by rw [hit, hprice])
  have hpne := (hi.restable hw).price_ne (.inl hlim.1)
  have hne : w.order.id ≠ o.id := by
    intro he
    have hfresh : b.orders.find? o.id = none := (hi.inHand rfl).fresh
    rw [← he, hw] at hfresh
    cases hfresh
  obtain ⟨hhand, hlive⟩ := Config.view_hand b o
  have hrest : (Config.view ⟨b, some o⟩).live w.order.id = some w.order := by
    rw [Config.view_some]
    exact (if_neg hne).trans (Book.resting_of_find? hw)
  have hqne := ht.matched_ne hi hc
  obtain ⟨hqo, hqw⟩ := matched_le o w.order
  have hle := UInt64.le_refl w.order.price
  rw [← hprice] at hcr
  refine ⟨rfl, hne, ?_⟩
  cases hs : o.side with
  | bid =>
    have hws : w.order.side = .ask := by
      cases hw' : w.order.side with
      | ask => rfl
      | bid => exact absurd (hw'.trans hs.symm) hlim.2
    have hcr : w.order.price ≤ o.price := by
      rw [hs] at hcr
      exact of_decide_eq_true hcr
    have htr : Trade (Config.view ⟨b, some o⟩) o w.order w.order.price (matched o w.order) :=
      ⟨hlive, hrest, hne.symm, hs, hws, hle, hcr, .inl ⟨hhand, ho, hlim.1, rfl⟩, hpne, hqne, hqo,
        hqw⟩
    unfold tradeNotes
    rw [show (o.execute w.order.price (matched o w.order)).side = .bid from hs]
    refine ⟨_, ?_, ?_, fun j => ?_, .traded htr⟩
    · exact hhand
    · rfl
    · rw [View.live_set]
      split
      · rfl
      · rename_i hj
        rw [View.live_set]
        split
        · rfl
        · rename_i hjo
          exact if_neg hjo
  | ask =>
    have hws : w.order.side = .bid := by
      cases hw' : w.order.side with
      | bid => rfl
      | ask => exact absurd (hw'.trans hs.symm) hlim.2
    have hcr : o.price ≤ w.order.price := by
      rw [hs] at hcr
      exact of_decide_eq_true hcr
    have htr : Trade (Config.view ⟨b, some o⟩) w.order o w.order.price (matched o w.order) :=
      ⟨hrest, hlive, hne, hws, hs, hcr, hle, .inr ⟨hhand, ho, hlim.1, rfl⟩, hpne, hqne, hqw, hqo⟩
    unfold tradeNotes
    rw [show (o.execute w.order.price (matched o w.order)).side = .ask from hs]
    refine ⟨_, ?_, ?_, fun j => ?_, .traded htr⟩
    · exact hhand
    · rfl
    · rw [View.live_set]
      by_cases hj : j = w.order.id
      · rw [if_pos hj, if_neg (fun he => hne (hj.symm.trans he)), View.live_set, if_pos hj]
      · rw [if_neg hj]
        split
        · rfl
        · rename_i hjo
          rw [View.live_set, if_neg hj]
          exact if_neg hjo

theorem Traded.acts (hi : Inv ⟨b, some o⟩) (ho : o.IsMatchable) (hc : b.canTrade o = true)
    (ht : Traded b o key l i w b' o') :
    ∃ ns, b'.trace = b.trace ++ ns ∧
      Acts Adm (Config.view ⟨b, some o⟩) ns (Config.view ⟨b', some o'⟩) := by
  obtain ⟨hid, hne, v, hhand, hprice, hlive, hact⟩ := ht.act Adm hi ho hc
  have hset := (Acts.single hact).settle
    (o := w.order.execute w.order.price (matched o w.order)) ((hlive _).trans (if_pos hid))
    (fun he => hne (by rw [hhand] at he; exact hid.symm.trans (Option.some.inj he).symm))
  refine ⟨_, by rw [ht.changed.trace, List.append_assoc], ?_⟩
  have hid' : o'.id = o.id := by
    rw [ht.order]
    rfl
  have hview : Config.view ⟨b', some o'⟩ = v.set w.order.id
      (if (w.order.execute w.order.price (matched o w.order)).isFilled then none
        else some (w.order.execute w.order.price (matched o w.order))) := by
    rw [Config.view_some, hid', ht.changed.lastTradedPrice]
    ext1
    · funext j
      rw [View.live_set, hlive, hid]
      dsimp only
      by_cases hj : j = i
      · rw [if_pos hj, if_neg (fun he => hne (hj.symm.trans he)), ht.changed.resting, if_pos hj]
        rfl
      · rw [if_neg hj, if_neg hj, ht.changed.resting, if_neg hj, ht.order]
        rfl
    · exact hhand.symm
    · exact hprice.symm
  rw [hview]
  exact hset

/-- The code marks what it does with the book as it is. -/
theorem Acts.mark {c : Config} {n : Note} (hn : n.shown = some c.book.toBook) :
    Acts Adm c.view [n] c.view := by
  apply Acts.single
  apply Act.quiet
  · intro h
    cases n with
    | event | trade => cases hn
    | matching | activated | updating => exact h
  · intro b hb
    rw [hn] at hb
    cases hb
    rfl

theorem Inv.workStep_acts (hi : Inv c) (hs : WorkStep c c') :
    ∃ ns, c'.book.trace = c.book.trace ++ ns ∧ Acts Adm c.view ns c'.view := by
  cases hs with
  | @priced b o ho =>
    obtain ⟨hhand, hlive⟩ := Config.view_hand b o
    have hv : Config.view ⟨b, some (o.setPrice (if o.isAsk then 0 else maxPrice))⟩ =
        (Config.view ⟨b, some o⟩).set o.id _ := Config.view_rehand b rfl
    refine ⟨[], (List.append_nil _).symm, ?_⟩
    rw [hv]
    exact .single (.priced hhand hlive ho)
  | matching ho => exact ⟨_, rfl, .mark rfl⟩
  | traded ho hc hm =>
    obtain ⟨key, l, i, w, ht⟩ := hi.linked.traded hm
    exact ht.acts hi ho hc
  | @rested b o ht hg hf hc =>
    obtain ⟨hhand, hlive⟩ := Config.view_hand b o
    obtain ⟨it, _, hin⟩ := insertLimitOrder_inserted ht (hi.inHand rfl).fresh
    refine ⟨[], by rw [hin.trace, List.append_nil], ?_⟩
    rw [hin.view]
    apply Acts.single
    apply Act.rested (b := b.toBook) hhand hlive
    · rw [ht]
      nofun
    · rfl
    · rintro (h | h) <;> rw [ht] at h <;> cases h
  | @dropped b o ho =>
    obtain ⟨hhand, hlive⟩ := Config.view_hand b o
    refine ⟨_, rfl, ?_⟩
    have hd : Acts Adm (Config.view ⟨b, some o⟩) _ _ := .single (.deleted hlive)
    rw [if_pos hhand] at hd
    convert hd using 1
    rw [Config.view_none, Config.view_some]
    ext1
    · funext i
      simp only [View.live_set]
      split
      · rename_i he
        have hfresh : b.orders.find? o.id = none := (hi.inHand rfl).fresh
        change (b.orders.find? i).map _ = none
        rw [he, hfresh]
        rfl
      · rfl
    · rfl
    · rfl
  | @activating key l i w b t b' ht hf hfr hw hd =>
    obtain ⟨i', w', hfr', hw', hit, hid, hh⟩ := hi.linked.front (firstStop_eq_some hf)
    rw [hfr] at hfr'
    cases hfr'
    rw [hw] at hw'
    cases hw'
    obtain ⟨w', l', hd⟩ := deleteOrderWith_deleted hd
    have hw' := hd.order
    rw [hid, hw] at hw'
    cases hw'
    have hst := Order.isStopType_of_home? hh ht
    refine ⟨[.event (.orderUpdated w.order.activate)], ?_, ?_⟩
    · rw [trace_emit, hd.trace]
      simp
    · have hact : Acts Adm (Config.view ⟨b, none⟩) _ _ := .single (.activated (.inl rfl)
        (by rw [hid]; exact Book.resting_of_find? hw) hst)
      convert hact using 1
      rw [Config.view_some, Config.view_none]
      ext1
      · funext j
        simp only [View.live_set]
        change (if j = w.order.id then _ else b'.resting j) = _
        rw [hd.resting]
        split
        · rfl
        · rfl
      · rfl
      · exact hd.prices.lastTradedPrice
  | activated => exact ⟨_, rfl, .mark rfl⟩

/-- The view after some orders have been moved. -/
def View.moveAll (v : View) (b : Book) (ws : List OrderWrapper) : View :=
  ws.foldl (fun v w => v.set w.order.id (some (b.calculateStopPrice w.order))) v

theorem View.moveAll_kept (v : View) (b : Book) (ws : List OrderWrapper) :
    (v.moveAll b ws).hand = v.hand ∧ (v.moveAll b ws).price = v.price ∧
      ∀ i, (∀ w ∈ ws, w.order.id ≠ i) → (v.moveAll b ws).live i = v.live i := by
  induction ws generalizing v with
  | nil => exact ⟨rfl, rfl, fun _ _ => rfl⟩
  | cons w ws ih =>
    obtain ⟨hh, hp, hl⟩ := ih (v.set w.order.id (some (b.calculateStopPrice w.order)))
    refine ⟨hh, hp, fun i hi => ?_⟩
    obtain ⟨hne, hi⟩ := List.forall_mem_cons.1 hi
    exact (hl i hi).trans (if_neg fun he => hne he.symm)

theorem View.moveAll_moved {ws : List OrderWrapper} (v : View) (b : Book)
    (hnd : (ws.map (fun w => w.order.id)).Nodup) (hw : w ∈ ws) :
    (v.moveAll b ws).live w.order.id = some (b.calculateStopPrice w.order) := by
  induction ws generalizing v with
  | nil => cases hw
  | cons w' ws ih =>
    obtain ⟨hn, hnd⟩ := List.nodup_cons.1 hnd
    rcases List.mem_cons.1 hw with rfl | hw
    · refine (View.moveAll_kept _ b ws).2.2 _ (fun w' hw' he => hn ?_) |>.trans (if_pos rfl)
      exact List.mem_map.2 ⟨w', hw', he⟩
    · exact ih _ hnd hw

theorem Acts.moveAll {v : View} {b : Book} (ws : List OrderWrapper) (hv : v.hand = none)
    (hp : b.lastTradedPrice = v.price) (hnd : (ws.map (fun w => w.order.id)).Nodup)
    (hw : ∀ w ∈ ws, v.live w.order.id = some w.order ∧ w.order.IsTrailing) :
    Acts Adm v (ws.map (fun w => .event (.orderUpdated (b.calculateStopPrice w.order))))
      (v.moveAll b ws) := by
  induction ws generalizing v with
  | nil => exact .nil
  | cons w ws ih =>
    obtain ⟨hn, hnd⟩ := List.nodup_cons.1 hnd
    obtain ⟨⟨hl, ht⟩, hw⟩ := List.forall_mem_cons.1 hw
    have h₁ : Acts Adm v _ _ := .single (.moved hv hl ht hp)
    have h₂ := ih (v := v.set w.order.id (some (b.calculateStopPrice w.order))) hv hp hnd
      fun w' hw' => ⟨by
        rw [View.live_set, if_neg fun he => hn (List.mem_map.2 ⟨w', hw', he⟩)]
        exact (hw w' hw').1, (hw w' hw').2⟩
    exact h₁.trans h₂

theorem Updated.acts (hl : Linked b.toBook) (hu : Updated b side b') :
    ∃ ns, (b'.remember side).trace = b.trace ++ ns ∧
      Acts Adm (Config.view ⟨b, none⟩) ns (Config.view ⟨b'.remember side, none⟩) := by
  have hview (b₁ : MapOrderBook) : Config.view ⟨b₁.remember side, none⟩ =
      Config.view ⟨b₁, none⟩ := by
    rw [Config.view_none, Config.view_none, lastTradedPrice_remember]
    unfold Book.resting
    rw [orders_remember]
  have hquiet : Acts Adm (Config.view ⟨b, none⟩) [.updating side b.toBook]
      (Config.view ⟨b, none⟩) := .mark rfl
  rw [hview, trace_remember]
  cases hr : b.relevels side with
  | false =>
    rw [hu.skipped hr]
    exact ⟨_, rfl, hquiet⟩
  | true =>
    obtain ⟨ws, hws, hm⟩ := hu.moved hr
    have hnd : (ws.map (fun w => w.order.id)).Nodup := by
      obtain ⟨ws', hids, hnd, _⟩ := hl.orders_of_map (trailingMap side)
      rw [← hm.ids]
      exact hids ▸ hnd
    refine ⟨_, by rw [hm.trace, trace_note, List.append_assoc], hquiet.trans ?_⟩
    have hmoves :
        Acts Adm (Config.view ⟨b, none⟩) _ ((Config.view ⟨b, none⟩).moveAll b.toBook ws) :=
      .moveAll ws rfl rfl hnd fun w hw => by
        obtain ⟨hw, ht⟩ := (hws w).1 hw
        exact ⟨Book.resting_of_find? hw, Order.isTrailing_of_home? (hl.home hw)
          (ht ▸ isTrailing_trailingMap side)⟩
    obtain ⟨hh, hp, hkept⟩ := View.moveAll_kept (Config.view ⟨b, none⟩) b.toBook ws
    have hv : Config.view ⟨b', none⟩ = (Config.view ⟨b, none⟩).moveAll b.toBook ws := by
      ext1
      · funext i
        change b'.resting i = _
        unfold Book.resting
        by_cases hi : ∃ w ∈ ws, w.order.id = i
        · obtain ⟨w, hw, rfl⟩ := hi
          rw [hm.moved w hw, View.moveAll_moved _ _ hnd hw]
          rfl
        · have hi : ∀ w ∈ ws, w.order.id ≠ i := fun w hw he => hi ⟨w, hw, he⟩
          rw [hm.kept i hi, hkept i hi]
          rfl
      · exact hh.symm
      · exact hu.prices.lastTradedPrice.trans hp.symm
    rw [hv]
    exact hmoves

/-- A resting order changes, and is deleted if that fills it. -/
theorem Changed.acts (hl : Linked b.toBook) (hst : w.order.SameTerms o)
    (hc : Changed b i w l o amount price (b.trace ++ ns) b')
    (hact : Act Adm (Config.view ⟨b, none⟩) ns
      { (Config.view ⟨b, none⟩).set i (some o) with price := price }) :
    ∃ ns, b'.trace = b.trace ++ ns ∧
      Acts Adm (Config.view ⟨b, none⟩) ns (Config.view ⟨b', none⟩) := by
  have hid : o.id = i := hst.id.trans (hl.id hc.order)
  subst hid
  have hset := (Acts.single hact).settle (o := o) (if_pos rfl) nofun
  refine ⟨_, by rw [hc.trace, List.append_assoc], ?_⟩
  convert hset using 1
  rw [Config.view_none, Config.view_none]
  ext1
  · funext j
    simp only [View.live_set]
    rw [hc.resting]
    split
    · rfl
    · rfl
  · rfl
  · exact hc.lastTradedPrice

/-- Every step is a sequence of acts. -/
theorem Inv.step_acts (hi : Inv c) (hadm : ∀ b r, Adm b r → Proper b r) (hs : Step Adm c c') :
    ∃ ns, c'.book.trace = c.book.trace ++ ns ∧ Acts Adm c.view ns c'.view := by
  cases hs with
  | work hs => exact hi.workStep_acts hs
  | @added o b ha =>
    have hfresh := (hadm _ _ ha).1
    have hn : (Config.view ⟨b, none⟩).live o.id = none := by
      change (b.orders.find? o.id).map _ = none
      rw [hfresh]
      rfl
    exact ⟨_, rfl, .single (.added rfl hn ha rfl)⟩
  | @trailed b o ht =>
    obtain ⟨hhand, hlive⟩ := Config.view_hand b o
    have hv : Config.view ⟨b, some (b.calculateStopPrice o)⟩ =
        (Config.view ⟨b, some o⟩).set o.id _ := Config.view_rehand b rfl
    refine ⟨[], (List.append_nil _).symm, ?_⟩
    rw [hv]
    exact .single (.trailed hhand hlive ht rfl)
  | @triggered b o ho _ =>
    obtain ⟨hhand, hlive⟩ := Config.view_hand b o
    refine ⟨_, rfl, ?_⟩
    have hv : Config.view ⟨b.emit (.orderUpdated o.activate), some o.activate⟩ =
        (Config.view ⟨b, some o⟩).set o.id _ := Config.view_rehand b rfl
    rw [hv]
    exact .single (.activated (.inr hhand) hlive ho)
  | @restedStop b o ht hn =>
    obtain ⟨hhand, hlive⟩ := Config.view_hand b o
    obtain ⟨it, _, hin⟩ := insertStopOrder_inserted ht (hi.inHand rfl).fresh
    refine ⟨[], by rw [hin.trace, List.append_nil], ?_⟩
    rw [hin.view]
    apply Acts.single
    apply Act.rested (b := b.toBook) hhand hlive
    · rcases ht with ht | ht <;> rw [ht] <;> nofun
    · rfl
    · rintro (h | h) <;> rcases ht with ht | ht <;> rw [ht] at h <;> cases h
  | @restedTrailing o b ht he hn =>
    obtain ⟨hhand, hlive⟩ := Config.view_hand b o
    obtain ⟨it, _, hin⟩ := insertTrailingStopOrder_inserted ht (hi.inHand rfl).fresh
    refine ⟨[], by rw [hin.trace, List.append_nil], ?_⟩
    rw [hin.view]
    apply Acts.single
    apply Act.rested (b := b.toBook) hhand hlive
    · rcases ht with ht | ht <;> rw [ht] <;> nofun
    · rfl
    · exact fun _ => ⟨he, hn⟩
  | updated hu =>
    obtain ⟨b₁, hb₁, hu'⟩ := updateStopOrders_updated hi.linked _
    rw [hu] at hb₁
    cases hb₁
    exact hu'.acts hi.linked
  | executed ha hx =>
    obtain ⟨w, l, hc⟩ := executeResting_changed hx
    have hid := hi.linked.id hc.order
    have hrest := Book.resting_of_find? hc.order
    apply hc.acts hi.linked (.execute _ _ _)
    rw [← hid] at hrest ha ⊢
    exact .executed rfl hrest hrest ha
  | cancelled ha hx =>
    obtain ⟨w, l, hc⟩ := cancelResting_changed hx
    have hid := hi.linked.id hc.order
    have hrest := Book.resting_of_find? hc.order
    apply hc.acts hi.linked (.setQuantity _ _)
    rw [← hid] at hrest ha ⊢
    exact .cancelled rfl hrest ha
  | deleted _ hd =>
    obtain ⟨w, l, hd⟩ := deleteOrderWith_deleted hd
    have hid := hi.linked.id hd.order
    have hrest := Book.resting_of_find? hd.order
    refine ⟨_, by rw [hd.trace, if_pos rfl], ?_⟩
    rw [← hid] at hrest
    have hact : Acts Adm (Config.view ⟨_, none⟩) _ _ := .single (.deleted hrest)
    convert hact using 1
    rw [Config.view_none, Config.view_none]
    ext1
    · funext j
      simp only [View.live_set]
      rw [hd.resting, hid]
    · rfl
    · exact hd.prices.lastTradedPrice

/-- What every act preserves, every step preserves. -/
theorem Inv.act_induct {J : View → List Note → Prop} (hadm : ∀ b r, Adm b r → Proper b r)
    (hact : ∀ {v ns v' t}, J v t → Act Adm v ns v' → J v' (t ++ ns)) (hi : Inv c)
    (hj : J c.view c.book.trace) (hs : Step Adm c c') : J c'.view c'.book.trace := by
  obtain ⟨ns, htr, ha⟩ := hi.step_acts hadm hs
  rw [htr]
  exact ha.induct hact hj

theorem Inv.steps_acts (hi : Inv c) (hadm : ∀ b r, Adm b r → Proper b r) (hs : Steps Adm c c') :
    ∃ ns, c'.book.trace = c.book.trace ++ ns ∧ Acts Adm c.view ns c'.view := by
  apply (hi.induct (J := fun d => ∃ ns, d.book.trace = c.book.trace ++ ns ∧
    Acts Adm c.view ns d.view) hadm _ ⟨[], (List.append_nil _).symm, .nil⟩ hs).2
  rintro d d' hi' ⟨ns, htr, ha⟩ hstep
  obtain ⟨ms, htr', ha'⟩ := hi'.step_acts hadm hstep
  exact ⟨ns ++ ms, by rw [htr', htr, List.append_assoc], ha.trans ha'⟩

/-- A completed operation is a sequence of acts. -/
theorem Inv.apply_acts (hi : Inv ⟨b, none⟩) (hadm : ∀ b r, Adm b r → Proper b r)
    {op : Op} (ha : op.Admits Adm b) (h : b.apply fuel op = .ok b') :
    ∃ ns, b'.trace = b.trace ++ ns ∧
      Acts Adm (Config.view ⟨b, none⟩) ns (Config.view ⟨b', none⟩) :=
  hi.steps_acts hadm (apply_steps h ha)

/-- So is an operation that is cut short. -/
theorem Inv.leaves_acts (hi : Inv ⟨b, none⟩) (hadm : ∀ b r, Adm b r → Proper b r)
    {op : Op} (ha : op.Admits Adm b) (hs : op.Starts b) (h : Leaves (b.apply fuel op) b') :
    ∃ ns v, b'.trace = b.trace ++ ns ∧ Acts Adm (Config.view ⟨b, none⟩) ns v ∧
      v.price = b'.lastTradedPrice := by
  rcases h with h | h
  · obtain ⟨ns, htr, hacts⟩ := hi.apply_acts hadm ha h
    exact ⟨ns, _, htr, hacts, rfl⟩
  · obtain ⟨c, hc, hb⟩ := (apply_runs fuel b op ha hs).of_error h
    obtain ⟨ns, htr, hacts⟩ := hi.steps_acts hadm hc
    have hi' : Inv c := hi.steps (Relation.ReflTransGen.mono (fun _ _ h => h.mono hadm) _ _ hc)
    cases hb.resolve_right hi'.not_stuck
    exact ⟨ns, _, htr, hacts, rfl⟩

/-- Nothing is asked of the book. -/
def Unasked (_ : Book) (_ : Request) : Prop := False

theorem Inv.unasked_acts (hi : Inv c) (hs : Steps Unasked c c') : Inv c' ∧
    ∃ ns, c'.book.trace = c.book.trace ++ ns ∧ Acts Unasked c.view ns c'.view :=
  ⟨(hi.induct (J := fun _ => True) (fun _ _ => nofun) (fun _ _ _ => trivial) trivial hs).1,
    hi.steps_acts (fun _ _ => nofun) hs⟩

/-- An order that is added is announced; all that follows is the code's own doing. -/
theorem Inv.addOrder_acts (hi : Inv ⟨b, none⟩) (ho : Proper b.toBook (.submit o))
    (h : b.addOrder fuel o = .ok b') : Inv ⟨b', none⟩ ∧
      ∃ ns, b'.trace = b.trace ++ .event (.orderAdded o) :: ns ∧
        Acts Unasked { (Config.view ⟨b, none⟩).set o.id (some o) with hand := some o.id } ns
          (Config.view ⟨b', none⟩) := by
  obtain ⟨b₁, h₁, h⟩ := bind_eq_ok.1 h
  have hi' : Inv ⟨b.emit (.orderAdded o), some o⟩ := hi.step (.added ho)
  have hs : Steps Unasked ⟨b.emit (.orderAdded o), some o⟩ ⟨b', none⟩ :=
    ((announced_runs fuel b o).of_ok h₁).trans ((activateStopOrders_runs fuel b₁).of_ok h)
  obtain ⟨hi₁, ns, htr, ha⟩ := hi'.unasked_acts hs
  refine ⟨hi₁, ns, ?_, ha⟩
  rw [htr, trace_emit, List.append_assoc]
  rfl

section Runs
variable {J : View → List Note → Prop}
  (hact : ∀ {v ns v' t}, J v t → Act Proper v ns v' → J v' (t ++ ns))
  (hnew : J ⟨fun _ => none, none, 0⟩ [])
include hact hnew

/-- What every act preserves holds after every completed operation. -/
theorem Reachable.act_induct (h : Reachable Op.Legal symbolId b) :
    J (Config.view ⟨b, none⟩) b.trace :=
  (h.induct (J := fun c => J c.view c.book.trace)
    (guards_legal fun hi hj hs => hi.act_induct (fun _ _ h => h) hact hj hs) hnew).2

/-- What every act preserves holds wherever an operation is cut short. -/
theorem Visited.act_induct (h : Visited Op.Legal symbolId b) : ∃ v, J v b.trace := by
  obtain ⟨c, rfl, _, hc⟩ := h.induct (J := fun c => J c.view c.book.trace)
    (guards_legal fun hi hj hs => hi.act_induct (fun _ _ h => h) hact hj hs) hnew
  exact ⟨_, hc⟩

end Runs

end RapidTrader
