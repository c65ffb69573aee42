import RapidTrader.Stages
import RapidTrader.Quiescence
import RapidTrader.Uncrossed

namespace RapidTrader
open Lib
set_option autoImplicit true

namespace Book

def bestBid (b : Book) : UInt64 :=
  match b.bidLevels.rbegin? with
  | some (price, _) => price
  | none => 0

def bestAsk (b : Book) : UInt64 :=
  match b.askLevels.begin? with
  | some (price, _) => price
  | none => maxPrice

/-- The loop of the validators over the levels of a map. -/
def validateLevels (b : Book) (t : LevelMap) (inPlace : UInt64 → Bool) (isKind : Order → Bool) :
    Bool :=
  (b.levels t).entries.all fun (price, level) =>
    !level.empty && inPlace price && level.price == price && level.side == t.side &&
      (level.orders.filterMap b.resting).all fun order => !order.isFilled && isKind order

def validateLimitOrders (b : Book) : Bool :=
  b.bestBid < b.bestAsk &&
    b.validateLevels .ask (fun _ => true) Order.isLimit &&
    b.validateLevels .bid (fun _ => true) Order.isLimit

def validateStopOrders (b : Book) : Bool :=
  b.validateLevels .stopAsk (fun price => price < b.lastTradedPrice)
      (fun order => order.isStop || order.isStopLimit) &&
    b.validateLevels .stopBid (fun price => b.lastTradedPrice < price)
      (fun order => order.isStop || order.isStopLimit)

def validateTrailingStopOrders (b : Book) : Bool :=
  b.validateLevels .trailingStopAsk (fun price => price < b.lastTradedPrice)
      (fun order => order.isTrailingStop || order.isTrailingStopLimit) &&
    b.validateLevels .trailingStopBid (fun price => b.lastTradedPrice < price)
      (fun order => order.isTrailingStop || order.isTrailingStopLimit)

/-- Whether all assertions of `validateOrderBook` hold. -/
def validateOrderBook (b : Book) : Bool :=
  b.validateLimitOrders && b.validateStopOrders && b.validateTrailingStopOrders

end Book

/-! ### The assertions that always hold -/

theorem validateLevels_eq_true {b : Book} (h : RepInv b)
    (hp : ∀ key l, b.level? ⟨t, key⟩ = some l → inPlace key = true)
    (hk : ∀ i w, b.orders.find? i = some w → w.levelIt.levels = t → isKind w.order = true) :
    b.validateLevels t inPlace isKind = true := by
  refine List.all_eq_true.2 fun ⟨key, l⟩ he => ?_
  have hl : b.level? ⟨t, key⟩ = some l := SortedMap.find?_eq_some.2 he
  have horders : ((l.orders.filterMap b.resting).all fun o => !o.isFilled && isKind o) = true := by
    refine List.all_eq_true.2 fun o ho => ?_
    obtain ⟨i, hi, hres⟩ := List.mem_filterMap.1 ho
    obtain ⟨w, hw, rfl⟩ := Option.map_eq_some_iff.1 hres
    obtain ⟨w', hw', hit⟩ := h.linked.owned hl hi
    rw [hw] at hw'
    cases hw'
    have hopen : w.order.isFilled = false := decide_eq_false (h.unfilled hw)
    rw [hopen, hk i w hw (by rw [hit])]
    rfl
  dsimp only
  rw [h.nonempty hl, hp key l hl, h.price hl, h.side hl, horders]
  simp

section Kinds
variable {b : Book}

theorem RepInv.isLimit (h : RepInv b) (ht : t = .ask ∨ t = .bid) (i : UInt64) (w : OrderWrapper)
    (hw : b.orders.find? i = some w) (hit : w.levelIt.levels = t) : w.order.isLimit = true := by
  have hh := h.holds hw
  rw [hit] at hh
  rcases ht with rfl | rfl <;> exact decide_eq_true hh.1

theorem RepInv.isStop (h : RepInv b) (ht : t = .stopAsk ∨ t = .stopBid) (i : UInt64)
    (w : OrderWrapper) (hw : b.orders.find? i = some w) (hit : w.levelIt.levels = t) :
    (w.order.isStop || w.order.isStopLimit) = true := by
  have hh := h.holds hw
  rw [hit] at hh
  rcases ht with rfl | rfl <;> simpa [Order.isStop, Order.isStopLimit] using hh.1

theorem RepInv.isTrailing (h : RepInv b) (ht : t = .trailingStopAsk ∨ t = .trailingStopBid)
    (i : UInt64) (w : OrderWrapper) (hw : b.orders.find? i = some w) (hit : w.levelIt.levels = t) :
    (w.order.isTrailingStop || w.order.isTrailingStopLimit) = true := by
  have hh := h.holds hw
  rw [hit] at hh
  rcases ht with rfl | rfl <;>
    simpa [Order.isTrailingStop, Order.isTrailingStopLimit, Order.IsTrailing] using hh.1

/-- Each level of stop orders lies on its side of the last price. -/
theorem Quiescent.inPlace (hq : Quiescent b) (h : Linked b) (ht : t.IsStop)
    (hl : b.level? ⟨t, key⟩ = some l) :
    (t.side = .ask → key < b.lastTradedPrice) ∧ (t.side = .bid → b.lastTradedPrice < key) := by
  obtain ⟨i, w, _, hw, hit, _, hh⟩ := h.front hl
  have hst := Order.isStopType_of_home? hh ht
  obtain ⟨hkey, hside⟩ := h.stop_map hw hst
  have hle : b.lastTradedPrice ≤ b.lastTradedPriceAsk := by
    unfold Book.lastTradedPriceAsk
    split
    · exact le_maxPrice _
    · exact UInt64.le_refl _
  rw [hit] at hkey hside
  dsimp only at hkey hside
  cases hs : w.order.side with
  | ask =>
    rw [hs] at hside
    have hlt := hq.ask hw hst hs
    rw [← hkey] at hlt
    rcases hside with rfl | rfl <;> exact ⟨fun _ => hlt, nofun⟩
  | bid =>
    rw [hs] at hside
    have hlt := hq.bid hw hst hs
    rw [← hkey] at hlt
    rcases hside with rfl | rfl <;> exact ⟨nofun, fun _ => UInt64.lt_of_le_of_lt hle hlt⟩

theorem Quiescent.askLevels (hq : Quiescent b) (h : RepInv b)
    (ht : t = .stopAsk ∨ t = .trailingStopAsk) (key : UInt64) (l : Level)
    (hl : b.level? ⟨t, key⟩ = some l) : decide (key < b.lastTradedPrice) = true := by
  have hs : t.IsStop ∧ t.side = .ask := by
    rcases ht with rfl | rfl <;> exact ⟨⟨nofun, nofun⟩, rfl⟩
  exact decide_eq_true ((hq.inPlace h.linked hs.1 hl).1 hs.2)

theorem Quiescent.bidLevels (hq : Quiescent b) (h : RepInv b)
    (ht : t = .stopBid ∨ t = .trailingStopBid) (key : UInt64) (l : Level)
    (hl : b.level? ⟨t, key⟩ = some l) : decide (b.lastTradedPrice < key) = true := by
  have hs : t.IsStop ∧ t.side = .bid := by
    rcases ht with rfl | rfl <;> exact ⟨⟨nofun, nofun⟩, rfl⟩
  exact decide_eq_true ((hq.inPlace h.linked hs.1 hl).2 hs.2)

theorem validateStopOrders_eq_true (h : RepInv b) (hq : Quiescent b) :
    b.validateStopOrders = true := by
  unfold Book.validateStopOrders
  rw [validateLevels_eq_true h (hq.askLevels h (.inl rfl)) (h.isStop (.inl rfl)),
    validateLevels_eq_true h (hq.bidLevels h (.inl rfl)) (h.isStop (.inr rfl))]
  rfl

theorem validateTrailingStopOrders_eq_true (h : RepInv b) (hq : Quiescent b) :
    b.validateTrailingStopOrders = true := by
  unfold Book.validateTrailingStopOrders
  rw [validateLevels_eq_true h (hq.askLevels h (.inr rfl)) (h.isTrailing (.inl rfl)),
    validateLevels_eq_true h (hq.bidLevels h (.inr rfl)) (h.isTrailing (.inr rfl))]
  rfl

end Kinds

/-! ### The comparison of the best prices -/

/-- A limit bid at the greatest price, which is also what an empty ask side shows. -/
def Order.IsTopBid (o : Order) : Prop := o.type = .limit ∧ o.side = .bid ∧ o.price = maxPrice

def NoTopBid (b : Book) : Prop := ∀ i w, b.orders.find? i = some w → ¬ w.order.IsTopBid

theorem noTopBid_iff {b : Book} (h : RepInv b) :
    NoTopBid b ↔ b.level? ⟨.bid, maxPrice⟩ = none := by
  constructor
  · intro hn
    by_contra hl
    obtain ⟨l, hl⟩ := Option.ne_none_iff_exists'.1 hl
    obtain ⟨i, w, _, hw, hit, _⟩ := h.linked.front hl
    have hh := h.holds hw
    have hkey := h.key hw
    rw [hit] at hh hkey
    rw [if_pos hh.1] at hkey
    exact hn i w hw ⟨hh.1, hh.2.2, hkey.symm⟩
  · rintro hn i w hw ⟨ht, hs, hp⟩
    obtain ⟨l, hl, _⟩ := h.linked.held hw
    have hit : w.levelIt = ⟨.bid, maxPrice⟩ := by
      have hh := Order.home?_eq_some.1 (h.linked.home hw)
      rw [if_pos ht, hp] at hh
      have hm : w.order.levelMap? = some .bid := by simp [Order.levelMap?, Order.isAsk, ht, hs]
      rw [hm] at hh
      obtain ⟨hmap, hkey⟩ := hh
      cases hw' : w.levelIt
      rw [hw'] at hmap hkey
      cases hmap
      cases hkey
      rfl
    rw [hit, hn] at hl
    cases hl

/-- With the prices 0 and 2^64 - 1 for empty sides, a book that is not crossed fails the comparison
only for a bid at the greatest price. -/
theorem bestBid_lt_bestAsk_iff {b : Book} (hu : Uncrossed b)
    (hz : b.level? ⟨.ask, 0⟩ = none) :
    b.bestBid < b.bestAsk ↔ b.level? ⟨.bid, maxPrice⟩ = none := by
  unfold Book.bestBid Book.bestAsk
  rw [uncrossed_iff] at hu
  cases hb : b.bidLevels.rbegin? with
  | none =>
    have hnone : b.level? ⟨.bid, maxPrice⟩ = none :=
      SortedMap.eq_empty_iff.1 (SortedMap.rbegin?_eq_none.1 hb) maxPrice
    refine iff_of_true ?_ hnone
    cases ha : b.askLevels.begin? with
    | none => decide
    | some e =>
      have hl : b.level? ⟨.ask, e.1⟩ = some e.2 := (SortedMap.begin?_eq_some ha).1
      refine UInt64.pos_iff_ne_zero.2 fun he => ?_
      dsimp only at he
      rw [he, hz] at hl
      cases hl
  | some e =>
    obtain ⟨hl, hbest⟩ := SortedMap.rbegin?_eq_some hb
    have hl' : b.level? ⟨.bid, e.1⟩ = some e.2 := hl
    cases ha : b.askLevels.begin? with
    | none =>
      dsimp only
      constructor
      · intro hlt
        by_contra hne
        obtain ⟨l, htop⟩ := Option.ne_none_iff_exists'.1 hne
        have hle := hbest maxPrice l htop
        exact absurd hlt (UInt64.not_lt.2 hle)
      · intro hnone
        refine UInt64.lt_of_le_of_ne (le_maxPrice _) fun he => ?_
        rw [he, hnone] at hl'
        cases hl'
    | some e' =>
      have ha' : b.level? ⟨.ask, e'.1⟩ = some e'.2 := (SortedMap.begin?_eq_some ha).1
      refine iff_of_true (hu _ _ _ _ hl' ha') ?_
      by_contra hne
      obtain ⟨l, htop⟩ := Option.ne_none_iff_exists'.1 hne
      have hlt := hu _ _ _ _ htop ha'
      exact absurd hlt (UInt64.not_lt.2 (le_maxPrice _))

/-- What the validator finds in a reachable book. -/
theorem validateOrderBook_iff (h : Reachable Op.Legal symbolId b) :
    b.validateOrderBook = true ↔ NoTopBid b.toBook := by
  have hr := repInv_of_reachable h
  have hq := (quiescent_of_reachable h).1
  have hz : b.level? ⟨.ask, 0⟩ = none := by
    by_contra hl
    obtain ⟨l, hl⟩ := Option.ne_none_iff_exists'.1 hl
    obtain ⟨i, w, _, hw, hit, _⟩ := hr.linked.front hl
    have hh := hr.holds hw
    have hkey := hr.key hw
    rw [hit] at hh hkey
    rw [if_pos hh.1] at hkey
    exact (h.inv.restable hw).price_ne (.inl hh.1) hkey.symm
  have hlimit : b.validateLimitOrders = true ↔ b.bestBid < b.bestAsk := by
    unfold Book.validateLimitOrders
    rw [validateLevels_eq_true hr (fun _ _ _ => rfl) (hr.isLimit (.inl rfl)),
      validateLevels_eq_true hr (fun _ _ _ => rfl) (hr.isLimit (.inr rfl))]
    simp
  unfold Book.validateOrderBook
  rw [validateStopOrders_eq_true hr hq, validateTrailingStopOrders_eq_true hr hq, Bool.and_true,
    Bool.and_true, hlimit, noTopBid_iff hr]
  exact bestBid_lt_bestAsk_iff ((never_crossed (.done h)).1 h) hz

/-! ### Runs that never fail it -/

/-- Each GTC bid at the greatest price that a trace tells of found asks enough to be filled. -/
def TopBidsCovered (trace : List Note) : Prop :=
  ∀ o before, .matching o before ∈ trace → o.timeInForce = .gtc → o.IsTopBid →
    o.openQuantity.toNat ≤ before.available o

theorem TopBidsCovered.mono (h : TopBidsCovered trace') (hs : trace <+: trace') :
    TopBidsCovered trace := fun o before hm => h o before (hs.subset hm)

theorem Order.SameTerms.isTopBid (h : Order.SameTerms o o') : o'.IsTopBid ↔ o.IsTopBid := by
  unfold Order.IsTopBid
  rw [h.type, h.side, h.price]

theorem Depleted.noTopBid (hd : Depleted b b') (hn : NoTopBid b.toBook) : NoTopBid b'.toBook := by
  intro i w hw ht
  obtain ⟨w₀, hw₀, hst, _⟩ := hd.rests hw
  exact hn i w₀ hw₀ (hst.isTopBid.1 ht)

theorem Deleted.noTopBid (hd : Deleted b i w l n b') (hn : NoTopBid b.toBook) :
    NoTopBid b'.toBook := by
  intro k w' hw'
  rw [hd.find?_orders] at hw'
  split at hw'
  · cases hw'
  · exact hn k w' hw'

theorem Changed.noTopBid (hst : w.order.SameTerms o) (hc : Changed b i w l o q p ns b')
    (hn : NoTopBid b.toBook) : NoTopBid b'.toBook := by
  intro k w' hw'
  rw [hc.find?_orders] at hw'
  split at hw'
  · split at hw'
    · cases hw'
    · cases hw'
      exact fun ht => hn i w hc.order (hst.isTopBid.1 ht)
  · exact hn k w' hw'

theorem Inserted.noTopBid (hi : Inserted b it o b') (ho : ¬ o.IsTopBid) (hn : NoTopBid b.toBook) :
    NoTopBid b'.toBook := by
  intro k w hw
  rw [hi.find?_orders] at hw
  split at hw
  · cases hw
    exact ho
  · exact hn k w hw

theorem Updated.noTopBid (hu : Updated b side b') (hn : NoTopBid b.toBook) :
    NoTopBid (b'.remember side).toBook := by
  intro i w hw
  obtain ⟨w₀, hw₀, ⟨rfl, _⟩ | ⟨_, _, rfl⟩⟩ := hu.find?_cases hw
  · exact hn i w hw₀
  · exact hn i w₀ hw₀

section Fill
variable {b b' : MapOrderBook} {o : Order}

/-- `match` tells of its call before all that comes of it. -/
theorem matchOrder_noted (h : b.matchOrder fuel o = .ok s) (hl : Linked b.toBook) :
    .matching o b.toBook ∈ s.1.trace := by
  have hn : .matching o b.toBook ∈ (b.note (.matching o b.toBook)).trace := by simp
  rcases matchOrder_cases h with h | ⟨_, rfl⟩
  · have hturn (s s' : MapOrderBook × Order)
        (hs : Linked s.1.toBook ∧ .matching o b.toBook ∈ s.1.trace)
        (_ : s.1.canTrade s.2 = true) (hm : s.1.matchFront s.2 = .ok s') :
        Linked s'.1.toBook ∧ .matching o b.toBook ∈ s'.1.trace := by
      obtain ⟨key, l, i, w, ht⟩ := hs.1.traded hm
      refine ⟨hs.1.changed (.execute _ _ _) ht.changed, ?_⟩
      rw [ht.changed.trace]
      exact List.mem_append_left _ (List.mem_append_left _ hs.2)
    exact (whileLoop_inv hturn ⟨hl, hn⟩ h).1.2
  · exact hn

/-- A covered bid does not come to rest. -/
theorem fill_noTopBid (hi : Inv ⟨b, some o⟩) (ho : o.IsMatchable) (h : b.fill fuel o = .ok b')
    (hn : NoTopBid b.toBook) (hc : TopBidsCovered b'.trace) : NoTopBid b'.toBook := by
  unfold MapOrderBook.fill at h
  split at h
  · rename_i hm
    obtain ⟨⟨b₁, o₁⟩, hm₁, h⟩ := bind_eq_ok.1 h
    cases h
    have hpriced := hi.consistent.workStep (.priced (of_decide_eq_true hm))
    exact (matchOrder_depleted hpriced (.inr (of_decide_eq_true hm)) hm₁).2.1.noTopBid hn
  · rename_i hm
    have hlim : o.type = .limit := ho.resolve_right fun ht => hm (decide_eq_true ht)
    have hp : o.IsPriced := fun ht => by
      rw [hlim] at ht
      cases ht
    obtain ⟨b₁, o₁, hm₁, ⟨hg, hf, rfl⟩ | ⟨_, rfl⟩⟩ := addLimitOrder_cases h
    · obtain ⟨hc₁, hd, hst⟩ := matchOrder_depleted hi.consistent ho hm₁
      have hfresh := hc₁.fresh rfl
      obtain ⟨it, _, hins⟩ := insertLimitOrder_inserted (hst.type.trans hlim) hfresh
      refine hins.noTopBid (fun ht => ?_) (hd.noTopBid hn)
      have hnoted := matchOrder_noted hm₁ hi.linked
      have hcov := hc o b.toBook (by rw [hins.trace]; exact hnoted) hg (hst.isTopBid.1 ht)
      have hk : o.isFok = false := by
        rw [Order.isFok, hg]
        rfl
      rw [matchOrder_not_fok hk] at hm₁
      have hopen := matchLoop_open (hi.workStep (.matching ho hp)) ho hp hm₁
      rw [toBook_note] at hopen
      have hz : o₁.openQuantity = 0 := by
        rw [← UInt64.toNat_inj, UInt64.toNat_zero]
        dsimp only at hopen
        omega
      exact of_decide_eq_false hf hz
    · exact (matchOrder_depleted hi.consistent ho hm₁).2.1.noTopBid hn

end Fill

/-- No stage brings a bid to rest at the greatest price. -/
theorem Stage.noTopBid (hi : Inv ⟨b, none⟩) (hs : Stage b b') (hn : NoTopBid b.toBook)
    (hc : TopBidsCovered b'.trace) : NoTopBid b'.toBook := by
  cases hs with
  | submitted ho h =>
    rename_i o fuel
    have hadd : Inv ⟨b.emit (.orderAdded o), some o⟩ := hi.step (.added ho)
    have hsub : Submission fuel b o (b.submitOrder fuel o) := submitOrder_submission ho.1
    rw [h] at hsub
    generalize hx : Except.ok b' = x at hsub
    cases hsub with
    | matched hm => exact fill_noTopBid hadd hm hx.symm hn hc
    | triggered hst htr =>
      have hst' := (isStopType_arriving b.toBook o).2 hst
      have harr := hadd.arriving.step (.triggered hst' htr)
      exact fill_noTopBid harr (Order.activate_isMatchable hst') hx.symm hn hc
    | waits hst _ _ hins =>
      cases hx
      refine hins.noTopBid (fun ht => ?_) hn
      exact Order.not_isStopType ht.1 ((isStopType_arriving b.toBook o).2 hst)
  | activated ht _ h =>
    obtain ⟨key, l, i, w, b₁, b₂, ha⟩ := activateFront_activated hi.linked h
    have hw := ha.deleted.order
    have hst : w.order.IsStopType :=
      Order.isStopType_of_home? (hi.linked.home hw) (by rw [ha.levelIt]; exact ht)
    have hact := hi.workStep (.activating ht ha.first ha.front hw ha.erased)
    cases ha.noted
    have hc₂ : TopBidsCovered b₂.trace := hc.mono (List.prefix_append _ _)
    have hn₂ : NoTopBid b₂.toBook := fill_noTopBid hact (Order.activate_isMatchable hst) ha.filled
      (ha.deleted.noTopBid hn) hc₂
    exact hn₂
  | updated h =>
    obtain ⟨b₁, hb₁, hu⟩ := updateStopOrders_updated hi.linked _
    rw [h] at hb₁
    cases hb₁
    exact hu.noTopBid hn
  | executed h =>
    obtain ⟨w, l, hc⟩ := executeResting_changed h
    exact hc.noTopBid (.execute _ _ _) hn
  | cancelled h =>
    obtain ⟨w, l, hc⟩ := cancelResting_changed h
    exact hc.noTopBid (.setQuantity _ _) hn
  | deleted h =>
    obtain ⟨w, l, hd⟩ := deleteOrderWith_deleted h
    exact hd.noTopBid hn

/-- After an operation the validator accepts the book exactly when no bid rests at the greatest
price. So it accepts every book of a run in which each such bid is filled at once. -/
theorem validator_accepts (h : Reachable Op.Legal symbolId b) :
    (b.validateOrderBook = true ↔ NoTopBid b.toBook) ∧
      (TopBidsCovered b.trace → b.validateOrderBook = true) := by
  refine ⟨validateOrderBook_iff h, fun hc => (validateOrderBook_iff h).2 ?_⟩
  refine h.stage_induct (J := fun b => TopBidsCovered b.trace → NoTopBid b.toBook)
    (fun _ _ _ hw => nomatch hw) (fun hi hj hs hc => ?_) hc
  exact hs.noTopBid hi (hj (hc.mono (hs.trace_prefix hi))) hc

/-- Whether a note tells of a covered bid, if it tells of a bid at the greatest price. -/
def Note.covered : Note → Bool
  | .matching o before => !(o.isGtc && o.isLimit && o.isBid && o.price == maxPrice) ||
      o.openQuantity.toNat ≤ before.available o
  | _ => true

theorem topBidsCovered_of_all (h : trace.all Note.covered = true) : TopBidsCovered trace := by
  rintro o before hm hg ⟨ht, hs, hp⟩
  have hc := List.all_eq_true.1 h _ hm
  simpa [Note.covered, Order.isGtc, Order.isLimit, Order.isBid, hg, ht, hs, hp] using hc

/-- A bid at the greatest price meets an ask of 5. -/
def topBidOps (quantity : UInt64) : List Op :=
  [.addOrder (.new .limit .ask .gtc 1 10 0 0 5 1),
    .addOrder (.new .limit .bid .gtc 1 18446744073709551615 0 0 quantity 2)]

theorem validator_accepts_topBidOps : ∃ b, (MapOrderBook.new 1).run 20 (topBidOps 5) = .ok b ∧
    b.validateOrderBook = true := by
  obtain ⟨b, hb, hr, hf⟩ := exists_reachable_of_run Op.Legal 1 20 (topBidOps 5)
    (by decide +kernel) (f := fun b => some (b.trace.all Note.covered)) (o := true)
    (by decide +kernel)
  exact ⟨b, hb, (validator_accepts hr).2 (topBidsCovered_of_all (Option.some.inj hf))⟩

/-- What is left of a larger bid comes to rest, and the validator rejects the book. -/
theorem topBidOps_rejected : ∃ b, Reachable Op.Legal 1 b ∧ b.bestBid = maxPrice ∧
    b.bestAsk = maxPrice ∧ b.validateOrderBook = false := by
  obtain ⟨b, _, hr, hf⟩ := exists_reachable_of_run Op.Legal 1 20 (topBidOps 6) (by decide +kernel)
    (f := fun b => some (b.bestBid, b.bestAsk, b.validateOrderBook))
    (o := (maxPrice, maxPrice, false)) (by decide +kernel)
  simp only [Option.some.injEq, Prod.mk.injEq] at hf
  exact ⟨b, hr, hf⟩

end RapidTrader
