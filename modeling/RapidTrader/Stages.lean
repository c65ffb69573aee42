import RapidTrader.Activation

namespace RapidTrader
open Lib Relation
set_option autoImplicit true

/-- The functions of the book that its operations are made of. Before and after each of them the
code holds no order in a local variable. -/
inductive Stage : MapOrderBook → MapOrderBook → Prop
  | submitted : Proper b.toBook (.submit o) → b.submitOrder fuel o = .ok b' → Stage b b'
  | activated : t.IsStop → b.canActivate t p = true → b.activateFront fuel t = .ok b' → Stage b b'
  | updated : b.updateStopOrders side = .ok b' → Stage b b'
  | executed : b.executeResting i q price = .ok b' → Stage b b'
  | cancelled : b.cancelResting i q = .ok b' → Stage b b'
  | deleted : b.deleteOrderWith i true = .ok b' → Stage b b'

abbrev Stages : MapOrderBook → MapOrderBook → Prop := ReflTransGen Stage

theorem Stage.steps (h : Stage b b') : Steps Proper ⟨b, none⟩ ⟨b', none⟩ := by
  cases h with
  | submitted ho h => exact (submitOrder_runs _ b _ ho).of_ok h
  | activated ht hc h => exact ((activateFront_runs _ b _ ht hc).of_ok h).steps
  | updated h => exact .single (.updated h)
  | executed h => exact .single (.executed trivial h)
  | cancelled h => exact .single (.cancelled trivial h)
  | deleted h => exact .single (.deleted trivial h)

theorem Stage.inv (hi : Inv ⟨b, none⟩) (h : Stage b b') : Inv ⟨b', none⟩ := hi.steps h.steps

theorem Stage.trace_prefix (hi : Inv ⟨b, none⟩) (h : Stage b b') : b.trace <+: b'.trace :=
  hi.trace_prefix h.steps

theorem activateLevels_stages (ht : t.IsStop)
    (h : MapOrderBook.activateLevels fuel t p (b, f) = .ok s) : Stages b s.1 := by
  have hturn (s s' : MapOrderBook × Bool) (hs : Stages b s.1) (hc : s.1.canActivate t p = true)
      (hb : (do return (← s.1.activateFront fuel t, true)) = Except.ok s') : Stages b s'.1 := by
    obtain ⟨b₁, hf, hb⟩ := bind_eq_ok.1 hb
    cases hb
    exact hs.tail (.activated ht hc hf)
  have hb : Stages b (b, f).1 := .refl
  exact (whileLoop_inv hturn hb h).1

theorem activateBidStopOrders_stages (h : MapOrderBook.activateBidStopOrders fuel b = .ok s) :
    Stages b s.1 := by
  obtain ⟨⟨b₁, f₁⟩, h₁, h⟩ := bind_eq_ok.1 h
  have hs₁ := activateLevels_stages (t := .stopBid) ⟨nofun, nofun⟩ h₁
  exact hs₁.trans (activateLevels_stages (t := .trailingStopBid) ⟨nofun, nofun⟩ h)

theorem activateAskStopOrders_stages (h : MapOrderBook.activateAskStopOrders fuel b = .ok s) :
    Stages b s.1 := by
  obtain ⟨⟨b₁, f₁⟩, h₁, h⟩ := bind_eq_ok.1 h
  have hs₁ := activateLevels_stages (t := .stopAsk) ⟨nofun, nofun⟩ h₁
  exact hs₁.trans (activateLevels_stages (t := .trailingStopAsk) ⟨nofun, nofun⟩ h)

theorem activatePass_stages (h : MapOrderBook.activatePass fuel b = .ok s) : Stages b s.1 := by
  obtain ⟨⟨b₁, f₁⟩, h₁, h⟩ := bind_eq_ok.1 h
  obtain ⟨b₂, h₂, h⟩ := bind_eq_ok.1 h
  obtain ⟨⟨b₃, f₃⟩, h₃, h⟩ := bind_eq_ok.1 h
  obtain ⟨b₄, h₄, h⟩ := bind_eq_ok.1 h
  cases h
  have hu₂ : b₁.updateStopOrders .ask = .ok b₂ := h₂
  have hu₄ : b₃.updateStopOrders .bid = .ok b₄ := h₄
  have hs₂ := (activateBidStopOrders_stages h₁).tail (.updated hu₂)
  exact (hs₂.trans (activateAskStopOrders_stages h₃)).tail (.updated hu₄)

theorem activateStopOrders_stages (h : MapOrderBook.activateStopOrders fuel b = .ok b') :
    Stages b b' := by
  obtain ⟨s, hs, h⟩ := bind_eq_ok.1 h
  cases h
  have hb : Stages b (b, true).1 := .refl
  exact (whileLoop_inv (I := fun s => Stages b s.1)
    (fun _ _ hs _ hb => hs.trans (activatePass_stages hb)) hb hs).1

theorem addOrder_stages (ho : Proper b.toBook (.submit o))
    (h : MapOrderBook.addOrder fuel b o = .ok b') : Stages b b' := by
  obtain ⟨b₁, hs, h⟩ := bind_eq_ok.1 h
  exact (activateStopOrders_stages h).head (.submitted ho hs)

/-- Every completed operation is a sequence of stages. -/
theorem apply_stages (hi : Inv ⟨b, none⟩) (hl : Op.Legal b.toBook op)
    (h : MapOrderBook.apply fuel b op = .ok b') : Stages b b' := by
  have hadm := (hl.proper hi).1
  cases op with
  | addOrder o => exact addOrder_stages hadm h
  | executeOrderAt i q p =>
    obtain ⟨b₁, h₁, h⟩ := bind_eq_ok.1 h
    exact (activateStopOrders_stages h).head (.executed h₁)
  | executeOrder i q =>
    obtain ⟨b₁, h₁, h⟩ := bind_eq_ok.1 h
    exact (activateStopOrders_stages h).head (.executed h₁)
  | cancelOrder i q =>
    obtain ⟨b₁, h₁, h⟩ := bind_eq_ok.1 h
    exact (activateStopOrders_stages h).head (.cancelled h₁)
  | deleteOrder i =>
    obtain ⟨b₁, h₁, h⟩ := bind_eq_ok.1 h
    exact (activateStopOrders_stages h).head (.deleted h₁)
  | replaceOrder i i' p =>
    obtain ⟨w, hw, h⟩ := bind_eq_ok.1 h
    obtain ⟨b₁, h₁, h⟩ := bind_eq_ok.1 h
    obtain ⟨b₂, h₂, h⟩ := bind_eq_ok.1 h
    rw [orderAt_eq_ok] at hw
    have hs := addOrder_stages (hadm.2 w b₁ hw h₁) h₂
    exact (hs.trans (activateStopOrders_stages h)).head (.deleted h₁)

section Induction
variable {J : MapOrderBook → Prop}

theorem Stages.induct (hstage : ∀ {b b'}, Inv ⟨b, none⟩ → J b → Stage b b' → J b')
    (hi : Inv ⟨b, none⟩) (hj : J b) (hs : Stages b b') : Inv ⟨b', none⟩ ∧ J b' := by
  induction hs with
  | refl => exact ⟨hi, hj⟩
  | tail _ hst ih => exact ⟨hst.inv ih.1, hstage ih.1 ih.2 hst⟩

/-- What every stage preserves holds after every completed operation. -/
theorem Reachable.stage_induct (hnew : J (.new symbolId))
    (hstage : ∀ {b b'}, Inv ⟨b, none⟩ → J b → Stage b b' → J b')
    (h : Reachable Op.Legal symbolId b) : J b := by
  induction h with
  | new => exact hnew
  | apply hr hl hop ih => exact (Stages.induct hstage hr.inv ih (apply_stages hr.inv hl hop)).2

end Induction

/-! ### Orders in hand -/

theorem Inv.arriving (hi : Inv ⟨b, some o⟩) : Inv ⟨b, some (b.arriving o)⟩ := by
  by_cases ht : o.IsTrailing
  · rw [arriving_of_isTrailing ht]
    exact hi.step (.trailed ht)
  · rw [arriving_of_not_isTrailing ht]
    exact hi

end RapidTrader
