import RapidTrader.Effects
import RapidTrader.Lib.Relational

namespace RapidTrader
open Lib
set_option autoImplicit true

/-- The two books are the same, and have the same to tell after `t` and `t'`. -/
structure Retells (t t' : List Note) (b b' : MapOrderBook) : Prop where
  book : b'.toBook = b.toBook
  told : ∃ ns, b.trace = t ++ ns ∧ b'.trace = t' ++ ns

namespace Book

/-- A greater bound on the turns does not change what `canMatchOrder` returns. -/
theorem canMatchLoop_mono {b : Book} (h : b.canMatchLoop o n a = some x) (hn : n ≤ m) :
    b.canMatchLoop o m a = some x := by
  induction n generalizing m a with
  | zero => cases h
  | succ n ih =>
    obtain ⟨m, rfl⟩ := Nat.exists_eq_add_of_le' (Nat.lt_of_lt_of_le (Nat.succ_pos n) hn)
    unfold canMatchLoop at h ⊢
    cases hb : b.bestOpposite o.side with
    | none =>
      rw [hb] at h
      exact h
    | some e =>
      rw [hb] at h
      dsimp only at h ⊢
      split
      · rename_i hc
        rw [if_pos hc] at h
        split
        · rename_i hq
          rwa [if_pos hq] at h
        · rename_i hq
          rw [if_neg hq] at h
          exact ih h (Nat.le_of_succ_le_succ hn)
      · rename_i hc
        rwa [if_neg hc] at h

end Book

namespace Retells

theorem refl (b b' : MapOrderBook) (h : b'.toBook = b.toBook) :
    Retells b.trace b'.trace b b' :=
  ⟨h, [], (List.append_nil _).symm, (List.append_nil _).symm⟩

section Functions
variable {t t' : List Note} {b b' : MapOrderBook} (h : Retells t t' b b')
include h

theorem note (n : Note) : Retells t t' (b.note n) (b'.note n) := by
  obtain ⟨ns, ht, ht'⟩ := h.told
  refine ⟨h.book, ns ++ [n], ?_, ?_⟩
  · rw [trace_note, ht, List.append_assoc]
  · rw [trace_note, ht', List.append_assoc]

theorem emit (e : Event) : Retells t t' (b.emit e) (b'.emit e) := h.note _

/-- An update that neither reads nor writes the trace. -/
theorem update {f : MapOrderBook → MapOrderBook}
    (hf : ∀ book trace, f ⟨book, trace⟩ = ⟨(f ⟨book, []⟩).toBook, trace⟩) :
    Retells t t' (f b) (f b') := by
  obtain ⟨book, trace⟩ := b
  obtain ⟨book', trace'⟩ := b'
  obtain ⟨hb, ns, ht, ht'⟩ := h
  cases hb
  rw [hf book trace, hf book trace']
  exact ⟨rfl, ns, ht, ht'⟩

theorem setLevels (m : LevelMap) (s : SortedMap UInt64 Level) :
    Retells t t' (b.setLevels m s) (b'.setLevels m s) :=
  h.update (f := fun b => b.setLevels m s) fun _ _ => by cases m <;> rfl

theorem levels (m : LevelMap) : b'.levels m = b.levels m := by rw [h.book]

theorem level? (it : LevelIt) : b'.level? it = b.level? it := by rw [h.book]

theorem orders : b'.orders = b.orders := by rw [h.book]

theorem modifyLevel (it : LevelIt) (f : Level → Level) :
    Retells t t' (b.modifyLevel it f) (b'.modifyLevel it f) := by
  unfold MapOrderBook.modifyLevel
  rw [h.levels]
  exact h.setLevels _ _

theorem orderAt (i : UInt64) : Tracks Eq (b.orderAt i) (b'.orderAt i) := by
  intro w hw
  refine ⟨w, ?_, rfl⟩
  rw [orderAt_eq_ok] at hw ⊢
  rw [h.orders, hw]

theorem levelAt (it : LevelIt) : Tracks Eq (b.levelAt it) (b'.levelAt it) := by
  intro l hl
  refine ⟨l, ?_, rfl⟩
  rw [levelAt_eq_ok] at hl ⊢
  rw [h.level?, hl]

theorem eraseLevel (o : Order) (it : LevelIt) :
    Tracks (Retells t t') (b.eraseLevel o it) (b'.eraseLevel o it) := by
  unfold MapOrderBook.eraseLevel
  split
  · exact .ok h
  · split
    · rw [h.levels]
      exact .ok (h.setLevels _ _)
    · exact .error _ _

theorem deleteOrderWith (i : UInt64) (n : Bool) :
    Tracks (Retells t t') (b.deleteOrderWith i n) (b'.deleteOrderWith i n) := by
  refine (h.orderAt i).bind fun w _ he => ?_
  subst he
  have h₁ : Retells t t' (if n then b.emit (.orderDeleted w.order) else b)
      (if n then b'.emit (.orderDeleted w.order) else b') := by
    split
    · exact h.emit _
    · exact h
  refine (h₁.levelAt w.levelIt).bind fun l _ he => ?_
  subst he
  have h₂ := h₁.modifyLevel w.levelIt (·.deleteOrder w.order)
  refine Tracks.bind (R := Retells t t') ?_ fun c c' hc => ?_
  · split
    · exact h₂.eraseLevel _ _
    · exact .ok h₂
  · exact .ok (hc.update (f := fun b => { b with orders := b.orders.erase i }) fun _ _ => rfl)

theorem insertOrder (m : LevelMap) (key : UInt64) (o : Order) :
    Retells t t' (b.insertOrder m key o) (b'.insertOrder m key o) :=
  h.update (f := fun b => b.insertOrder m key o) fun _ _ => by cases m <;> rfl

theorem insertTrailingStopOrder (o : Order) :
    Retells t t' (b.insertTrailingStopOrder o) (b'.insertTrailingStopOrder o) := by
  refine h.update (f := fun b => b.insertTrailingStopOrder o) fun _ _ => ?_
  unfold MapOrderBook.insertTrailingStopOrder
  split <;> rfl

theorem executeOrders (ask bid : Order) (price : UInt64) :
    Retells t t' (b.executeOrders ask bid price).1 (b'.executeOrders ask bid price).1 :=
  (((h.note _).emit _).emit _).update (f := fun b => { b with lastTradedPrice := price })
    fun _ _ => rfl

theorem writeOrder (i : UInt64) (o : Order) :
    Retells t t' (b.writeOrder i o) (b'.writeOrder i o) :=
  h.update (f := fun b => b.writeOrder i o) fun _ _ => rfl

theorem settle (it : LevelIt) (o : Order) (i amount : UInt64) :
    Tracks (Retells t t') (b.settle it o i amount) (b'.settle it o i amount) := by
  have h₁ := h.modifyLevel it (·.reduceVolume amount)
  unfold MapOrderBook.settle
  dsimp only
  split
  · exact h₁.deleteOrderWith i true
  · exact .ok h₁

theorem matchFront (o : Order) : Tracks (fun s s' => Retells t t' s.1 s'.1 ∧ s'.2 = s.2)
    (b.matchFront o) (b'.matchFront o) := by
  unfold MapOrderBook.matchFront
  rw [h.book]
  cases b.bestOpposite o.side with
  | none => exact .error _ _
  | some e =>
    obtain ⟨key, l⟩ := e
    dsimp only
    cases l.front with
    | none => exact .error _ _
    | some i =>
      refine (h.orderAt i).bind fun w _ he => ?_
      subst he
      cases o.side with
      | ask =>
        refine (((h.executeOrders o w.order w.order.price).writeOrder i _).settle _ _ _ _).bind
          fun c c' hc => .ok ⟨hc, rfl⟩
      | bid =>
        refine (((h.executeOrders w.order o w.order.price).writeOrder i _).settle _ _ _ _).bind
          fun c c' hc => .ok ⟨hc, rfl⟩

theorem relevelOrder (m : LevelMap) (s : SortedMap UInt64 Level) (i : UInt64) :
    Tracks (fun s s' => Retells t t' s.1 s'.1 ∧ s'.2 = s.2)
      (MapOrderBook.relevelOrder m (b, s) i) (MapOrderBook.relevelOrder m (b', s) i) := by
  refine (h.orderAt i).bind fun w _ he => ?_
  subst he
  have hc : b'.calculateStopPrice w.order = b.calculateStopPrice w.order := by rw [h.book]
  have hs : b'.symbolId = b.symbolId := by rw [h.book]
  simp only [hc]
  have h₁ := h.update (f := fun c => { c with orders := c.orders.modify i fun _ =>
    ⟨b.calculateStopPrice w.order, ⟨m, b.newStopPrice w.order⟩⟩ }) fun _ _ => rfl
  refine .ok ⟨h₁.emit _, ?_⟩
  rw [hs]

theorem relevel (m : LevelMap) : Tracks (Retells t t') (b.relevel m) (b'.relevel m) := by
  unfold MapOrderBook.relevel
  rw [h.levels]
  refine Tracks.bind (R := fun s s' => Retells t t' s.1 s'.1 ∧ s'.2 = s.2)
    (Tracks.foldlM ?_ _ ⟨h, rfl⟩) fun s s' hs => ?_
  · rintro ⟨c, s⟩ ⟨c', s'⟩ i ⟨hc, rfl⟩
    exact hc.relevelOrder m _ i
  · obtain ⟨c, s⟩ := s
    obtain ⟨c', s'⟩ := s'
    obtain ⟨hc, rfl⟩ := hs
    exact .ok (hc.setLevels _ _)

theorem updateStopOrders (side : OrderSide) :
    Tracks (Retells t t') (b.updateStopOrders side) (b'.updateStopOrders side) := by
  rw [updateStopOrders_eq, updateStopOrders_eq, h.book]
  have h₁ := h.note (.updating side b.toBook)
  refine Tracks.bind (R := Retells t t') ?_ fun c c' hc => ?_
  · split
    · exact h₁.relevel _
    · exact .ok h₁
  · exact .ok (hc.update (f := fun b => b.remember side) fun _ _ => by cases side <;> rfl)

theorem executeResting (i q : UInt64) (price : Order → UInt64) :
    Tracks (Retells t t') (b.executeResting i q price) (b'.executeResting i q price) := by
  refine (h.orderAt i).bind fun w _ he => ?_
  subst he
  refine (h.levelAt w.levelIt).bind fun _ _ _ => ?_
  have h₁ := (h.writeOrder i (w.order.execute (price w.order) (min q w.order.openQuantity))).update
    (f := fun b => { b with lastTradedPrice := price w.order }) fun _ _ => rfl
  exact (h₁.emit _).settle _ _ _ _

theorem cancelResting (i q : UInt64) :
    Tracks (Retells t t') (b.cancelResting i q) (b'.cancelResting i q) := by
  refine (h.orderAt i).bind fun w _ he => ?_
  subst he
  refine (h.levelAt w.levelIt).bind fun _ _ _ => ?_
  exact ((h.writeOrder i (w.order.setQuantity q)).emit _).settle _ _ _ _

end Functions

/-! ### The functions whose loops are bounded -/

section Bounded
variable {t t' : List Note} {b b' : MapOrderBook} {n m : Nat} (hn : n ≤ m)
include hn

theorem matchOrder (h : Retells t t' b b') (o : Order) :
    Tracks (fun s s' => Retells t t' s.1 s'.1 ∧ s'.2 = s.2)
      (b.matchOrder n o) (b'.matchOrder m o) := by
  unfold MapOrderBook.matchOrder
  dsimp only
  rw [h.book]
  have h₁ := h.note (.matching o b.toBook)
  refine Tracks.bind (R := Eq) ?_ fun k _ he => ?_
  · split
    · intro k hk
      cases hc : (b.note (.matching o b.toBook)).canMatchOrder n o with
      | none =>
        rw [hc] at hk
        cases hk
      | some possible =>
        rw [hc] at hk
        refine ⟨k, ?_, rfl⟩
        have hc' : (b'.note (.matching o b.toBook)).canMatchOrder m o = some possible := by
          rw [h₁.book]
          exact Book.canMatchLoop_mono hc hn
        rw [hc']
        exact hk
    · exact .ok rfl
  · subst he
    split
    · exact .ok ⟨h₁, rfl⟩
    · refine Tracks.whileLoop ?_ ?_ hn ⟨h₁, rfl⟩
      · rintro ⟨c, o⟩ ⟨c', o'⟩ ⟨hc, rfl⟩
        dsimp only
        rw [hc.book]
      · rintro ⟨c, o⟩ ⟨c', o'⟩ ⟨hc, rfl⟩
        exact hc.matchFront _

theorem addLimitOrder (h : Retells t t' b b') (o : Order) :
    Tracks (Retells t t') (b.addLimitOrder n o) (b'.addLimitOrder m o) := by
  refine (matchOrder hn h o).bind ?_
  rintro ⟨c, o⟩ ⟨c', o'⟩ ⟨hc, rfl⟩
  dsimp only
  split
  · exact .ok (hc.insertOrder _ _ _)
  · exact .ok (hc.emit _)

theorem addMarketOrder (h : Retells t t' b b') (o : Order) :
    Tracks (Retells t t') (b.addMarketOrder n o) (b'.addMarketOrder m o) := by
  refine (matchOrder hn h _).bind ?_
  rintro ⟨c, o⟩ ⟨c', o'⟩ ⟨hc, rfl⟩
  exact .ok (hc.emit _)

theorem addStopOrder (h : Retells t t' b b') (o : Order) :
    Tracks (Retells t t') (b.addStopOrder n o) (b'.addStopOrder m o) := by
  unfold MapOrderBook.addStopOrder
  dsimp only
  rw [h.book]
  generalize (if (o.isTrailingStop || o.isTrailingStopLimit) = true then b.calculateStopPrice o
    else o) = o₁
  split
  · split
    · exact addMarketOrder hn (h.emit _) _
    · exact addLimitOrder hn (h.emit _) _
  · split
    · exact .ok (h.insertTrailingStopOrder _)
    · exact .ok (h.insertOrder _ _ _)

theorem activateStopOrder (h : Retells t t' b b') (o : Order) :
    Tracks (Retells t t') (b.activateStopOrder n o) (b'.activateStopOrder m o) := by
  refine (h.deleteOrderWith o.id false).bind fun c c' hc => ?_
  dsimp only
  refine Tracks.bind (R := Retells t t') ?_ fun d d' hd => ?_
  · split
    · exact addMarketOrder hn (hc.emit _) _
    · exact addLimitOrder hn (hc.emit _) _
  · rw [hd.book]
    exact .ok (hd.note _)

theorem activateFront (h : Retells t t' b b') (l : LevelMap) :
    Tracks (Retells t t') (b.activateFront n l) (b'.activateFront m l) := by
  unfold MapOrderBook.activateFront
  rw [h.book]
  cases b.firstStop l with
  | none => exact .error _ _
  | some e =>
    obtain ⟨key, level⟩ := e
    dsimp only
    cases level.front with
    | none => exact .error _ _
    | some i =>
      refine (h.orderAt i).bind fun w _ he => ?_
      subst he
      exact activateStopOrder hn h _

theorem activateLevels (h : Retells t t' b b') (l : LevelMap) (p : UInt64) (f : Bool) :
    Tracks (fun s s' => Retells t t' s.1 s'.1 ∧ s'.2 = s.2)
      (MapOrderBook.activateLevels n l p (b, f)) (MapOrderBook.activateLevels m l p (b', f)) := by
  refine Tracks.whileLoop ?_ ?_ hn ⟨h, rfl⟩
  · rintro ⟨c, f⟩ ⟨c', f'⟩ ⟨hc, rfl⟩
    dsimp only
    rw [hc.book]
  · rintro ⟨c, f⟩ ⟨c', f'⟩ ⟨hc, rfl⟩
    exact (activateFront hn hc l).bind fun _ _ hd => .ok ⟨hd, rfl⟩

theorem activateBidStopOrders (h : Retells t t' b b') :
    Tracks (fun s s' => Retells t t' s.1 s'.1 ∧ s'.2 = s.2)
      (b.activateBidStopOrders n) (b'.activateBidStopOrders m) := by
  unfold MapOrderBook.activateBidStopOrders
  rw [h.book]
  refine (activateLevels hn h _ _ _).bind ?_
  rintro ⟨c, f⟩ ⟨c', f'⟩ ⟨hc, rfl⟩
  dsimp only
  rw [hc.book]
  exact activateLevels hn hc _ _ _

theorem activateAskStopOrders (h : Retells t t' b b') :
    Tracks (fun s s' => Retells t t' s.1 s'.1 ∧ s'.2 = s.2)
      (b.activateAskStopOrders n) (b'.activateAskStopOrders m) := by
  unfold MapOrderBook.activateAskStopOrders
  rw [h.book]
  refine (activateLevels hn h _ _ _).bind ?_
  rintro ⟨c, f⟩ ⟨c', f'⟩ ⟨hc, rfl⟩
  dsimp only
  rw [hc.book]
  exact activateLevels hn hc _ _ _

theorem activatePass (h : Retells t t' b b') :
    Tracks (fun s s' => Retells t t' s.1 s'.1 ∧ s'.2 = s.2)
      (b.activatePass n) (b'.activatePass m) := by
  refine (activateBidStopOrders hn h).bind ?_
  rintro ⟨c, f⟩ ⟨c', f'⟩ ⟨hc, rfl⟩
  refine (hc.updateStopOrders .ask).bind fun d d' hd => ?_
  refine (activateAskStopOrders hn hd).bind ?_
  rintro ⟨e, g⟩ ⟨e', g'⟩ ⟨he, rfl⟩
  exact (he.updateStopOrders .bid).bind fun _ _ hr => .ok ⟨hr, rfl⟩

theorem activateStopOrders (h : Retells t t' b b') :
    Tracks (Retells t t') (b.activateStopOrders n) (b'.activateStopOrders m) := by
  refine Tracks.bind (R := fun s s' => Retells t t' s.1 s'.1 ∧ s'.2 = s.2)
    (Tracks.whileLoop ?_ ?_ hn ⟨h, rfl⟩) fun s s' hs => .ok hs.1
  · rintro ⟨c, f⟩ ⟨c', f'⟩ ⟨_, rfl⟩
    rfl
  · rintro ⟨c, f⟩ ⟨c', f'⟩ ⟨hc, rfl⟩
    exact activatePass hn hc

theorem submitOrder (h : Retells t t' b b') (o : Order) :
    Tracks (Retells t t') (b.submitOrder n o) (b'.submitOrder m o) := by
  unfold MapOrderBook.submitOrder
  dsimp only
  have h₁ := h.emit (.orderAdded o)
  cases o.type with
  | limit => exact addLimitOrder hn h₁ o
  | market => exact addMarketOrder hn h₁ o
  | _ => exact addStopOrder hn h₁ o

theorem addOrder (h : Retells t t' b b') (o : Order) :
    Tracks (Retells t t') (b.addOrder n o) (b'.addOrder m o) :=
  (submitOrder hn h o).bind fun _ _ hc => activateStopOrders hn hc

/-- What an operation does to the book and what it tells depend neither on what has been told
before nor on how many turns the loops may take, as long as they end. -/
theorem apply (h : Retells t t' b b') (op : Op) :
    Tracks (Retells t t') (b.apply n op) (b'.apply m op) := by
  cases op with
  | addOrder o => exact addOrder hn h o
  | executeOrderAt i q p =>
    exact (h.executeResting i q _).bind fun _ _ hc => activateStopOrders hn hc
  | executeOrder i q =>
    exact (h.executeResting i q _).bind fun _ _ hc => activateStopOrders hn hc
  | cancelOrder i q =>
    exact (h.cancelResting i q).bind fun _ _ hc => activateStopOrders hn hc
  | deleteOrder i =>
    exact (h.deleteOrderWith i true).bind fun _ _ hc => activateStopOrders hn hc
  | replaceOrder i i' p =>
    refine (h.orderAt i).bind fun w _ he => ?_
    subst he
    refine (h.deleteOrderWith i true).bind fun _ _ hc => ?_
    exact (addOrder hn hc _).bind fun _ _ hd => activateStopOrders hn hd

end Bounded

theorem eq (h : Retells t t b b') : b' = b := by
  obtain ⟨book, trace⟩ := b
  obtain ⟨book', trace'⟩ := b'
  obtain ⟨hb, ns, ht, ht'⟩ := h
  cases hb
  cases ht.trans ht'.symm
  rfl

end Retells

/-- A greater bound on the turns of the loops does not change the result. -/
theorem addOrder_mono {b : MapOrderBook} (hn : n ≤ m) (h : b.addOrder n o = .ok b') :
    b.addOrder m o = .ok b' := by
  obtain ⟨b'', h', hr⟩ := (Retells.refl b b rfl).addOrder hn o b' h
  rwa [hr.eq] at h'

theorem apply_mono {b : MapOrderBook} (hn : n ≤ m) (h : b.apply n op = .ok b') :
    b.apply m op = .ok b' := by
  obtain ⟨b'', h', hr⟩ := (Retells.refl b b rfl).apply hn op b' h
  rwa [hr.eq] at h'

end RapidTrader
