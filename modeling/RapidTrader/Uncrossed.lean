import RapidTrader.Runs

namespace RapidTrader
open Lib Relation
set_option autoImplicit true

/-- One side is empty or the highest bid is below the lowest ask. -/
def Uncrossed (b : Book) : Prop :=
  match b.bidLevels.rbegin?, b.askLevels.begin? with
  | some (bid, _), some (ask, _) => bid < ask
  | _, _ => True

instance (b : Book) : Decidable (Uncrossed b) := by
  unfold Uncrossed
  exact match b.bidLevels.rbegin?, b.askLevels.begin? with
    | some (bid, _), some (ask, _) => inferInstanceAs (Decidable (bid < ask))
    | none, _ => inferInstanceAs (Decidable True)
    | some _, none => inferInstanceAs (Decidable True)

theorem uncrossed_iff {b : Book} : Uncrossed b ↔ ∀ bid ask l l',
    b.level? ⟨.bid, bid⟩ = some l → b.level? ⟨.ask, ask⟩ = some l' → bid < ask := by
  unfold Uncrossed
  cases hb : b.bidLevels.rbegin? with
  | none =>
    have hn := SortedMap.eq_empty_iff.1 (SortedMap.rbegin?_eq_none.1 hb)
    refine ⟨fun _ bid ask l l' hl _ => ?_, fun _ => trivial⟩
    have : b.bidLevels.find? bid = some l := hl
    rw [hn] at this
    cases this
  | some e =>
    cases ha : b.askLevels.begin? with
    | none =>
      have hn := SortedMap.eq_empty_iff.1 (SortedMap.begin?_eq_none.1 ha)
      refine ⟨fun _ bid ask l l' _ hl => ?_, fun _ => trivial⟩
      have : b.askLevels.find? ask = some l' := hl
      rw [hn] at this
      cases this
    | some e' =>
      obtain ⟨hb, hbid⟩ := SortedMap.rbegin?_eq_some hb
      obtain ⟨ha, hask⟩ := SortedMap.begin?_eq_some ha
      constructor
      · intro h bid ask l l' hl hl'
        have h₁ : bid ≤ e.1 := hbid bid l hl
        have h₂ : e'.1 ≤ ask := hask ask l' hl'
        have h₃ : e.1 < e'.1 := h
        grind
      · exact fun h => h _ _ _ _ hb ha

/-- No limit level has appeared. -/
def NoNewLimits (b b' : Book) : Prop :=
  ∀ it l, it.levels = .ask ∨ it.levels = .bid → b'.level? it = some l → b.level? it ≠ none

theorem Uncrossed.of_noNewLimits (h : Uncrossed b) (hn : NoNewLimits b b') : Uncrossed b' := by
  rw [uncrossed_iff] at h ⊢
  intro bid ask l l' hl hl'
  obtain ⟨l₁, hl₁⟩ := Option.ne_none_iff_exists'.1 (hn ⟨.bid, bid⟩ l (.inr rfl) hl)
  obtain ⟨l₂, hl₂⟩ := Option.ne_none_iff_exists'.1 (hn ⟨.ask, ask⟩ l' (.inl rfl) hl')
  exact h bid ask l₁ l₂ hl₁ hl₂

theorem Changed.noNewLimits (h : Linked b.toBook) (ht : w.order.SameTerms o)
    (hc : Changed b i w l o amount price notes b') : NoNewLimits b.toBook b'.toBook := by
  intro it l₁ _ hl
  rw [hc.levels (ht.home?.trans (h.home hc.order))] at hl
  split at hl
  · rename_i hit
    rw [hit, hc.held]
    exact Option.some_ne_none _
  · rw [hl]
    exact Option.some_ne_none _

theorem Deleted.noNewLimits (h : Linked b.toBook) (hd : Deleted b i w l n b') :
    NoNewLimits b.toBook b'.toBook := by
  intro it l₁ _ hl
  rw [hd.levels (h.home hd.order)] at hl
  split at hl
  · rename_i hit
    rw [hit, hd.held]
    exact Option.some_ne_none _
  · rw [hl]
    exact Option.some_ne_none _

theorem Inserted.noNewLimits (hi : Inserted b it o b') (ht : it.levels.IsStop) :
    NoNewLimits b.toBook b'.toBook := by
  intro it' l hlim hl
  rw [hi.levels, if_neg] at hl
  · rw [hl]
    exact Option.some_ne_none _
  · rintro rfl
    rcases hlim with h | h
    · exact ht.1 h
    · exact ht.2 h

theorem Updated.noNewLimits (hu : Updated b side b') : NoNewLimits b.toBook b'.toBook := by
  intro it l hlim hl
  cases hr : b.relevels side with
  | false =>
    rw [hu.skipped hr] at hl
    exact Option.ne_none_iff_exists'.2 ⟨l, hl⟩
  | true =>
    obtain ⟨ws, _, hm⟩ := hu.moved hr
    rw [hm.levels, if_neg] at hl
    · exact Option.ne_none_iff_exists'.2 ⟨l, hl⟩
    · intro ht
      rw [ht] at hlim
      cases side <;> rcases hlim with h | h <;> cases h

/-- An order that cannot trade any more may join its side. -/
theorem Uncrossed.insertLimitOrder {b : MapOrderBook} (h : Uncrossed b.toBook)
    (ht : o.type = .limit) (hn : b.orders.find? o.id = none) (hf : o.isFilled = false)
    (hc : b.canTrade o = false) : Uncrossed (b.insertLimitOrder o).toBook := by
  obtain ⟨it, hhome, hi⟩ := insertLimitOrder_inserted ht hn
  have hit := Order.levelMap?_eq_some.1 (Order.home?_levelMap? hhome)
  have hkey : it.key = o.price := by
    obtain ⟨t, _, rfl⟩ := Option.map_eq_some_iff.1 hhome
    simp [Order.isLimit, ht]
  rw [uncrossed_iff] at h ⊢
  intro bid ask l l' hl hl'
  rw [hi.levels] at hl hl'
  have hno (key : UInt64) (l : Level)
      (hl : b.level? ⟨Book.oppositeMap o.side, key⟩ = some l) :
      Book.crosses o.side key o.price = false := canTrade_eq_false hc hf hl
  cases hs : o.side with
  | ask =>
    rw [if_neg (by rintro rfl; simp [hs] at hit)] at hl
    split at hl'
    · rename_i he
      rw [hs] at hno
      have := hno bid l hl
      simp only [Book.crosses, decide_eq_false_iff_not] at this
      have hask : ask = o.price := by rw [← hkey, ← he]
      grind
    · exact h bid ask l l' hl hl'
  | bid =>
    rw [if_neg (by rintro rfl; simp [hs] at hit)] at hl'
    split at hl
    · rename_i he
      rw [hs] at hno
      have := hno ask l' hl'
      simp only [Book.crosses, decide_eq_false_iff_not] at this
      have hbid : bid = o.price := by rw [← hkey, ← he]
      grind
    · exact h bid ask l l' hl hl'

theorem Inv.workStep_uncrossed (h : Inv c) (hu : Uncrossed c.book.toBook) (hs : WorkStep c c') :
    Uncrossed c'.book.toBook := by
  cases hs with
  | priced ho => exact hu
  | matching ho => exact hu
  | traded ho hc hm =>
    obtain ⟨key, l, i, w, ht⟩ := h.linked.traded hm
    exact hu.of_noNewLimits (ht.changed.noNewLimits h.linked (.execute _ _ _))
  | rested ht hg hf hc => exact hu.insertLimitOrder ht (h.inHand rfl).fresh hf hc
  | dropped ho => exact hu
  | activating ht hf hfr hw hd =>
    obtain ⟨w', l, hd⟩ := deleteOrderWith_deleted hd
    have hn := hd.noNewLimits h.linked
    exact hu.of_noNewLimits hn
  | activated => exact hu

theorem Inv.step_uncrossed (h : Inv c) (hu : Uncrossed c.book.toBook)
    (hs : Step Proper c c') : Uncrossed c'.book.toBook := by
  cases hs with
  | work hs => exact h.workStep_uncrossed hu hs
  | added ha => exact hu
  | trailed ht => exact hu
  | triggered ho _ => exact hu
  | restedStop ht _ =>
    obtain ⟨it, hhome, hi⟩ := insertStopOrder_inserted ht (h.inHand rfl).fresh
    have hst : Order.IsStopType _ := ht.elim .inl fun h => .inr (.inl h)
    exact hu.of_noNewLimits (hi.noNewLimits (Order.isStop_of_home? hhome hst))
  | restedTrailing ht _ _ =>
    obtain ⟨it, hhome, hi⟩ := insertTrailingStopOrder_inserted ht (h.inHand rfl).fresh
    exact hu.of_noNewLimits (hi.noNewLimits (Order.isStop_of_home? hhome (.inr (.inr ht))))
  | updated hb =>
    obtain ⟨b₁, hb₁, hu'⟩ := updateStopOrders_updated h.linked _
    rw [hb] at hb₁
    cases hb₁
    apply hu.of_noNewLimits
    intro it l hlim hl
    rw [level?_remember] at hl
    exact hu'.noNewLimits it l hlim hl
  | executed _ hx =>
    obtain ⟨w, l, hc⟩ := executeResting_changed hx
    exact hu.of_noNewLimits (hc.noNewLimits h.linked (.execute _ _ _))
  | cancelled _ hx =>
    obtain ⟨w, l, hc⟩ := cancelResting_changed hx
    exact hu.of_noNewLimits (hc.noNewLimits h.linked (.setQuantity _ _))
  | deleted _ hd =>
    obtain ⟨w, l, hd⟩ := deleteOrderWith_deleted hd
    exact hu.of_noNewLimits (hd.noNewLimits h.linked)

/-- The book is uncrossed, and so it was after every activation. -/
structure Settled (c : Config) : Prop where
  uncrossed : Uncrossed c.book.toBook
  activated : .activated o after ∈ c.book.trace → Uncrossed after

theorem Settled.new (symbolId : UInt32) : Settled ⟨.new symbolId, none⟩ :=
  ⟨trivial, fun h => (nomatch h)⟩

theorem Settled.step (h : Settled c) (hi : Inv c) (hs : Step Proper c c') : Settled c' := by
  refine ⟨hi.step_uncrossed h.uncrossed hs, fun {o after} hn => ?_⟩
  obtain ⟨ns, htr, hns⟩ := hi.step_marked hs
  rw [htr] at hn
  rcases List.mem_append.1 hn with hn | hn
  · exact h.activated hn
  · cases hns _ hn with
    | activated _ => exact h.uncrossed

theorem Visited.settled (h : Visited Op.Legal symbolId b) : ∃ c, c.book = b ∧ Settled c := by
  obtain ⟨c, hb, _, hc⟩ :=
    h.induct (guards_legal fun hi hc hs => hc.step hi hs) (Settled.new symbolId)
  exact ⟨c, hb, hc⟩

/-- No operation leaves the book crossed, and neither does an activation, not even one of an
operation that does not end. -/
theorem never_crossed (h : Visited Op.Legal symbolId b) :
    (Reachable Op.Legal symbolId b → Uncrossed b.toBook) ∧
      ∀ o after, .activated o after ∈ b.trace → Uncrossed after := by
  obtain ⟨c, rfl, hc⟩ := h.settled
  exact ⟨fun _ => hc.uncrossed, fun _ _ ha => hc.activated ha⟩

theorem never_crossed_mixedOps : ∃ b, (MapOrderBook.new 1).run 20 mixedOps = .ok b ∧
    (Reachable Op.Legal 1 b → Uncrossed b.toBook) ∧
      ∀ o after, .activated o after ∈ b.trace → Uncrossed after := by
  obtain ⟨b, hb, hr⟩ := exists_reachable Op.Legal 1 20 mixedOps (by decide +kernel)
    (by decide +kernel)
  exact ⟨b, hb, never_crossed (.done hr)⟩

end RapidTrader
