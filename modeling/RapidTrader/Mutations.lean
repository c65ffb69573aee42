import RapidTrader.Everywhere

namespace RapidTrader
open Lib Relation
set_option autoImplicit true

/-- The writes that every step of the code is made of, whatever state the book is in. -/
inductive Mutation : MapOrderBook → MapOrderBook → Prop
  | noted : (∀ e, n = .event e → e.order? ≠ none) → Mutation b (b.note n)
  | priced : Mutation b
      { b with lastTradedPrice := p, trailingBidPrice := p', trailingAskPrice := p'' }
  | reduced : Mutation b (b.modifyLevel it (·.reduceVolume amount))
  | written : b.orders.find? i = some w → o.id = w.order.id → Mutation b (b.writeOrder i o)
  | deleted : b.deleteOrderWith i n = .ok b' → Mutation b b'
  | inserted : Mutation b (b.insertOrder t key o)
  | pointed : Mutation b
      { b with orders := b.orders.modify i (fun w => { w with levelIt := it }) }
  | releveled : b.relevel t = .ok b' → Mutation b b'

abbrev Mutations : MapOrderBook → MapOrderBook → Prop := ReflTransGen Mutation

namespace Mutations

theorem emit (b : MapOrderBook) (he : e.order? ≠ none) : Mutations b (b.emit e) :=
  .single (.noted fun e' h => by cases h; exact he)

theorem settle (h : b.settle it o i amount = .ok b') : Mutations b b' := by
  have hr : Mutations b (b.modifyLevel it (·.reduceVolume amount)) := .single .reduced
  unfold MapOrderBook.settle at h
  split at h
  · exact hr.tail (.deleted h)
  · cases h
    exact hr

theorem executeOrders (b : MapOrderBook) (ask bid : Order) (price : UInt64) :
    Mutations b (b.executeOrders ask bid price).1 := by
  have hn : Mutations b (b.note (.trade bid.id ask.id price
    (min ask.openQuantity bid.openQuantity))) := .single (.noted fun _ he => by cases he)
  refine ReflTransGen.tail ?_ .priced
  exact (hn.trans (emit _ (fun he => by cases he))).trans (emit _ (fun he => by cases he))

/-- A trade writes the resting order back under its id. -/
theorem traded (b : MapOrderBook) (ask bid : Order) (price : UInt64) (i : UInt64)
    (hw : b.orders.find? i = some w)
    (hs : ((b.executeOrders ask bid price).1.writeOrder i o).settle it o i' amount = .ok b')
    (ho : o.id = w.order.id) :
    Mutations b b' :=
  ((executeOrders b ask bid price).tail (.written hw ho)).trans (settle hs)

theorem matchFront (h : b.matchFront o = .ok (b', o')) : Mutations b b' := by
  unfold MapOrderBook.matchFront at h
  split at h
  · cases h
  · split at h
    · cases h
    · obtain ⟨w, hw, h⟩ := bind_eq_ok.1 h
      rw [orderAt_eq_ok] at hw
      cases hs : o.side with
      | ask =>
        simp only [hs] at h
        obtain ⟨b₁, hset, h⟩ := bind_eq_ok.1 h
        cases h
        exact traded b o w.order w.order.price _ hw hset rfl
      | bid =>
        simp only [hs] at h
        obtain ⟨b₁, hset, h⟩ := bind_eq_ok.1 h
        cases h
        exact traded b w.order o w.order.price _ hw hset rfl

theorem updateStopOrders (h : b.updateStopOrders side = .ok b') : Mutations b b' := by
  rw [updateStopOrders_eq] at h
  obtain ⟨b₁, hb₁, h⟩ := bind_eq_ok.1 h
  cases h
  have hn : Mutations b (b.note (.updating side b.toBook)) :=
    .single (.noted fun _ he => by cases he)
  have h₁ : Mutations b b₁ := by
    split at hb₁
    · exact hn.tail (.releveled hb₁)
    · cases hb₁
      exact hn
  cases side with
  | ask => exact h₁.tail .priced
  | bid => exact h₁.tail .priced

theorem executeResting (h : b.executeResting i quantity price = .ok b') : Mutations b b' := by
  obtain ⟨w, hw, h⟩ := bind_eq_ok.1 h
  obtain ⟨l, _, h⟩ := bind_eq_ok.1 h
  rw [orderAt_eq_ok] at hw
  have hwr : Mutations b (b.writeOrder i
      (w.order.execute (price w.order) (min quantity w.order.openQuantity))) :=
    .single (.written hw rfl)
  exact ((hwr.tail .priced).trans (emit _ (fun he => by cases he))).trans (settle h)

theorem cancelResting (h : b.cancelResting i quantity = .ok b') : Mutations b b' := by
  obtain ⟨w, hw, h⟩ := bind_eq_ok.1 h
  obtain ⟨l, _, h⟩ := bind_eq_ok.1 h
  rw [orderAt_eq_ok] at hw
  have hwr : Mutations b (b.writeOrder i (w.order.setQuantity quantity)) :=
    .single (.written hw rfl)
  exact (hwr.trans (emit _ (fun he => by cases he))).trans (settle h)

end Mutations

theorem WorkStep.mutations (h : WorkStep c c') : Mutations c.book c'.book := by
  cases h with
  | priced _ => exact .refl
  | matching _ _ => exact .single (.noted fun _ he => by cases he)
  | traded _ _ hm => exact Mutations.matchFront hm
  | rested _ _ _ _ => exact .single .inserted
  | dropped _ => exact Mutations.emit _ (fun he => by cases he)
  | activating _ _ _ _ hd =>
    exact ReflTransGen.head (.deleted hd) (Mutations.emit _ (fun he => by cases he))
  | activated => exact .single (.noted fun _ he => by cases he)

theorem Step.mutations (h : Step Adm c c') : Mutations c.book c'.book := by
  cases h with
  | work h => exact h.mutations
  | added _ => exact Mutations.emit _ (fun he => by cases he)
  | trailed _ => exact .refl
  | triggered _ _ => exact Mutations.emit _ (fun he => by cases he)
  | restedStop _ _ => exact .single .inserted
  | restedTrailing _ _ _ => exact ReflTransGen.tail (.single .inserted) .pointed
  | updated hu => exact Mutations.updateStopOrders hu
  | executed _ hx => exact Mutations.executeResting hx
  | cancelled _ hx => exact Mutations.cancelResting hx
  | deleted _ hd => exact .single (.deleted hd)

theorem Steps.mutations (h : Steps Adm c c') : Mutations c.book c'.book := by
  induction h with
  | refl => exact .refl
  | tail _ hs ih => exact ih.trans hs.mutations

/-- What every write preserves holds after any steps. -/
theorem Mutations.induct {I : MapOrderBook → Prop} (hI : ∀ {b b'}, Mutation b b' → I b → I b')
    (h : Mutations b b') (hb : I b) : I b' := by
  induction h with
  | refl => exact hb
  | tail _ hm ih => exact hI hm ih

/-- The book tells of orders only. -/
theorem Mutations.order?_ne_none (h : Mutations b b')
    (hb : ∀ e, .event e ∈ b.trace → e.order? ≠ none) :
    ∀ e, .event e ∈ b'.trace → e.order? ≠ none := by
  refine h.induct (I := fun b => ∀ e, .event e ∈ b.trace → e.order? ≠ none) ?_ hb
  intro b b' hm hb e he
  cases hm with
  | noted hn =>
    rw [trace_note, List.mem_append, List.mem_singleton] at he
    exact he.elim (hb e) fun he => hn e he.symm
  | priced => exact hb e he
  | reduced =>
    rw [trace_modifyLevel] at he
    exact hb e he
  | written _ _ => exact hb e he
  | deleted hd =>
    obtain ⟨w, l, hd⟩ := deleteOrderWith_deleted hd
    rw [hd.trace, List.mem_append] at he
    refine he.elim (hb e) fun he => ?_
    split at he
    · cases List.mem_singleton.1 he
      nofun
    · cases he
  | inserted =>
    unfold MapOrderBook.insertOrder at he
    rw [trace_modifyLevel] at he
    dsimp only at he
    rw [trace_setLevels] at he
    exact hb e he
  | pointed => exact hb e he
  | releveled hr =>
    obtain ⟨⟨b₁, m⟩, hf, hr⟩ := bind_eq_ok.1 hr
    cases hr
    rw [trace_setLevels] at he
    refine foldlM_inv (I := fun s => ∀ e, .event e ∈ s.1.trace → e.order? ≠ none) ?_ hb hf e he
    intro s i s' hs hs' e he
    obtain ⟨w, _, hs'⟩ := bind_eq_ok.1 hs'
    cases hs'
    rw [trace_emit, List.mem_append, List.mem_singleton] at he
    refine he.elim (hs e) fun he => ?_
    cases he
    nofun

end RapidTrader
