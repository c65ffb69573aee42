import RapidTrader.MapOrderBook

namespace RapidTrader
open Lib Relation
set_option autoImplicit true

/-- The order a stop order turns into when it is activated. -/
def Order.activate (o : Order) : Order :=
  ((o.setStopPrice 0).setTrailAmount 0).setType
    (if o.isStop || o.isTrailingStop then .market else .limit)

def Order.IsTrailing (o : Order) : Prop := o.type = .trailingStop ∨ o.type = .trailingStopLimit

instance (o : Order) : Decidable o.IsTrailing := inferInstanceAs (Decidable (_ ∨ _))

def Order.IsStopType (o : Order) : Prop := o.type = .stop ∨ o.type = .stopLimit ∨ o.IsTrailing

/-- The types of the orders that reach `match`. -/
def Order.IsMatchable (o : Order) : Prop := o.type = .limit ∨ o.type = .market

/-- A market order has been given the price that meets every level. -/
def Order.IsPriced (o : Order) : Prop :=
  o.type = .market → o.price = if o.isAsk then 0 else maxPrice

/-- The two orders differ in quantities and in their last execution only. -/
structure Order.SameTerms (o o' : Order) : Prop where
  type : o'.type = o.type
  side : o'.side = o.side
  timeInForce : o'.timeInForce = o.timeInForce
  symbolId : o'.symbolId = o.symbolId
  price : o'.price = o.price
  stopPrice : o'.stopPrice = o.stopPrice
  trailAmount : o'.trailAmount = o.trailAmount
  id : o'.id = o.id

namespace Order.SameTerms

theorem refl (o : Order) : SameTerms o o := ⟨rfl, rfl, rfl, rfl, rfl, rfl, rfl, rfl⟩

theorem trans (h : SameTerms o o') (h' : SameTerms o' o'') : SameTerms o o'' :=
  ⟨h'.type.trans h.type, h'.side.trans h.side, h'.timeInForce.trans h.timeInForce,
    h'.symbolId.trans h.symbolId, h'.price.trans h.price, h'.stopPrice.trans h.stopPrice,
    h'.trailAmount.trans h.trailAmount, h'.id.trans h.id⟩

theorem execute (o : Order) (price quantity : UInt64) :
    SameTerms o (o.execute price quantity) := ⟨rfl, rfl, rfl, rfl, rfl, rfl, rfl, rfl⟩

theorem setQuantity (o : Order) (quantity : UInt64) :
    SameTerms o (o.setQuantity quantity) := ⟨rfl, rfl, rfl, rfl, rfl, rfl, rfl, rfl⟩

theorem isStopType (h : SameTerms o o') : o'.IsStopType ↔ o.IsStopType := by
  unfold IsStopType IsTrailing
  rw [h.type]

end Order.SameTerms

/-- The maps of stop orders. -/
def LevelMap.IsStop (t : LevelMap) : Prop := t ≠ .ask ∧ t ≠ .bid

/-- The engine in the middle of an operation: the book, and the order that the code holds in a
local variable. -/
structure Config where
  book : MapOrderBook
  working : Option Order

/-- The steps of matching and of activating stop orders. -/
inductive WorkStep : Config → Config → Prop
  | priced : o.type = .market →
      WorkStep ⟨b, some o⟩ ⟨b, some (o.setPrice (if o.isAsk then 0 else maxPrice))⟩
  | matching : o.IsMatchable → o.IsPriced →
      WorkStep ⟨b, some o⟩ ⟨b.note (.matching o b.toBook), some o⟩
  | traded : o.IsMatchable → b.canTrade o = true → b.matchFront o = .ok (b', o') →
      WorkStep ⟨b, some o⟩ ⟨b', some o'⟩
  | rested : o.type = .limit → o.timeInForce = .gtc → o.isFilled = false →
      b.canTrade o = false → WorkStep ⟨b, some o⟩ ⟨b.insertLimitOrder o, none⟩
  | dropped : o.IsMatchable → WorkStep ⟨b, some o⟩ ⟨b.emit (.orderDeleted o), none⟩
  | activating : t.IsStop → b.firstStop t = some (key, l) → l.front = some orderId →
      b.orders.find? orderId = some w → b.deleteOrderWith w.order.id false = .ok b' →
      WorkStep ⟨b, none⟩ ⟨b'.emit (.orderUpdated w.order.activate), some w.order.activate⟩
  | activated : WorkStep ⟨b, none⟩ ⟨b.note (.activated o b.toBook), none⟩

/-- What a client may ask of the book. A replacement is a deletion and a submission. -/
inductive Request where
  | submit (order : Order)
  | execute (orderId quantity : UInt64) (price : Order → UInt64)
  | cancel (orderId quantity : UInt64)
  | delete (orderId : UInt64)

/-- What the code can do next. Every function of the book is a sequence of these steps, so an
invariant of the steps holds at every point of every operation. `Adm` says which requests are
made. -/
inductive Step (Adm : Book → Request → Prop) : Config → Config → Prop
  | work : WorkStep c c' → Step Adm c c'
  | added : Adm b.toBook (.submit o) → Step Adm ⟨b, none⟩ ⟨b.emit (.orderAdded o), some o⟩
  | trailed : o.IsTrailing → Step Adm ⟨b, some o⟩ ⟨b, some (b.calculateStopPrice o)⟩
  | triggered : o.IsStopType → b.stopTriggered o = true →
      Step Adm ⟨b, some o⟩ ⟨b.emit (.orderUpdated o.activate), some o.activate⟩
  | restedStop : o.type = .stop ∨ o.type = .stopLimit → b.stopTriggered o = false →
      Step Adm ⟨b, some o⟩ ⟨b.insertStopOrder o, none⟩
  | restedTrailing : o.IsTrailing → o = b.calculateStopPrice o → b.stopTriggered o = false →
      Step Adm ⟨b, some o⟩ ⟨b.insertTrailingStopOrder o, none⟩
  | updated : b.updateStopOrders side = .ok b' → Step Adm ⟨b, none⟩ ⟨b', none⟩
  | executed : Adm b.toBook (.execute orderId quantity price) →
      b.executeResting orderId quantity price = .ok b' → Step Adm ⟨b, none⟩ ⟨b', none⟩
  | cancelled : Adm b.toBook (.cancel orderId quantity) →
      b.cancelResting orderId quantity = .ok b' → Step Adm ⟨b, none⟩ ⟨b', none⟩
  | deleted : Adm b.toBook (.delete orderId) →
      b.deleteOrderWith orderId true = .ok b' → Step Adm ⟨b, none⟩ ⟨b', none⟩

/-- The places where the code would use an entry that is not there. -/
inductive Stuck : Config → MapOrderBook → Prop
  | traded : o.IsMatchable → b.canTrade o = true → b.matchFront o = .error e →
      Stuck ⟨b, some o⟩ e
  | front : b.firstStop t = some (key, l) → (∀ w, l.front.bind b.orders.find? ≠ some w) →
      Stuck ⟨b, none⟩ b
  | activating : b.firstStop t = some (key, l) → l.front = some orderId →
      b.orders.find? orderId = some w → b.deleteOrderWith w.order.id false = .error e →
      Stuck ⟨b, none⟩ e
  | updated : b.updateStopOrders side = .error e → Stuck ⟨b, none⟩ e

abbrev WorkSteps : Config → Config → Prop := ReflTransGen WorkStep

abbrev Steps (Adm : Book → Request → Prop) : Config → Config → Prop := ReflTransGen (Step Adm)

theorem Step.mono (h : Step Adm c c') (ha : ∀ b r, Adm b r → Adm' b r) : Step Adm' c c' := by
  cases h with
  | work h => exact .work h
  | added h => exact .added (ha _ _ h)
  | trailed h => exact .trailed h
  | triggered h h' => exact .triggered h h'
  | restedStop h h' => exact .restedStop h h'
  | restedTrailing h h' h'' => exact .restedTrailing h h' h''
  | updated h => exact .updated h
  | executed h h' => exact .executed (ha _ _ h) h'
  | cancelled h h' => exact .cancelled (ha _ _ h) h'
  | deleted h h' => exact .deleted (ha _ _ h) h'

/-- The book in which a run of the relation `R` stops without a result. -/
def Halts (R : Config → Config → Prop) (c : Config) (e : MapOrderBook) : Prop :=
  ∃ c', R c c' ∧ (c'.book = e ∨ Stuck c' e)

theorem Halts.trans {R : Config → Config → Prop} (hR : ∀ {a b c}, R a b → R b c → R a c)
    (hc : R c c') (h : Halts R c' e) : Halts R c e := by
  obtain ⟨c₁, h₁, he⟩ := h
  exact ⟨c₁, hR hc h₁, he⟩

theorem WorkSteps.steps (h : WorkSteps c c') : Steps Adm c c' :=
  ReflTransGen.lift (fun c => c) (fun _ _ => Step.work) _ _ h

theorem Halts.steps (h : Halts WorkSteps c e) : Halts (Steps Adm) c e := by
  obtain ⟨c', hc, he⟩ := h
  exact ⟨c', hc.steps, he⟩

/-- `x` runs by steps of `R` from `c` to the configuration `g` makes of its result. -/
abbrev RunsTo (R : Config → Config → Prop) (c : Config) (g : α → Config) (x : Exec α) : Prop :=
  Ends (Halts R c) (fun a => R c (g a)) x

theorem RunsTo.steps (h : RunsTo WorkSteps c g x) : RunsTo (Steps Adm) c g x :=
  h.mono (fun _ => Halts.steps) (fun _ _ => WorkSteps.steps)

/-- Code that is run after steps have been taken. -/
theorem RunsTo.after {x : Exec α} (hc : ReflTransGen S c c')
    (h : RunsTo (ReflTransGen S) c' g x) : RunsTo (ReflTransGen S) c g x :=
  h.mono (fun _ => Halts.trans ReflTransGen.trans hc) (fun _ _ => hc.trans)

theorem RunsTo.bind {x : Exec α} {f : α → Exec β} (hx : RunsTo (ReflTransGen S) c g x)
    (hf : ∀ a, x = .ok a → ReflTransGen S c (g a) → RunsTo (ReflTransGen S) (g a) k (f a)) :
    RunsTo (ReflTransGen S) c k (x >>= f) :=
  Ends.bind hx fun a ha hg => (hf a ha hg).after hg

section Functions
variable (fuel : Nat) (b : MapOrderBook)

theorem matchFront_sameTerms (h : b.matchFront o = .ok (b', o')) : o.SameTerms o' := by
  unfold MapOrderBook.matchFront at h
  split at h
  · cases h
  · split at h
    · cases h
    · obtain ⟨w, _, h⟩ := bind_eq_ok.1 h
      cases hs : o.side with
      | ask =>
        simp only [hs] at h
        obtain ⟨b₁, _, h⟩ := bind_eq_ok.1 h
        cases h
        exact .execute _ _ _
      | bid =>
        simp only [hs] at h
        obtain ⟨b₁, _, h⟩ := bind_eq_ok.1 h
        cases h
        exact .execute _ _ _

theorem matchOrder_runs (o : Order) (ho : o.IsMatchable) (hp : o.IsPriced) :
    RunsTo WorkSteps ⟨b, some o⟩ (fun r => ⟨r.1, some r.2⟩) (b.matchOrder fuel o) := by
  have hm : WorkSteps ⟨b, some o⟩ ⟨b.note (.matching o b.toBook), some o⟩ :=
    .single (.matching ho hp)
  refine RunsTo.after hm ?_
  have hbody (s : MapOrderBook × Order)
      (hs : WorkSteps ⟨b.note (.matching o b.toBook), some o⟩ ⟨s.1, some s.2⟩ ∧ o.SameTerms s.2)
      (ht : s.1.canTrade s.2 = true) :
      Ends (Halts WorkSteps ⟨b.note (.matching o b.toBook), some o⟩)
        (fun s' => WorkSteps ⟨b.note (.matching o b.toBook), some o⟩ ⟨s'.1, some s'.2⟩ ∧
          o.SameTerms s'.2) (s.1.matchFront s.2) := by
    have hm : s.2.IsMatchable := by
      unfold Order.IsMatchable
      rw [hs.2.type]
      exact ho
    cases hf : s.1.matchFront s.2 with
    | ok r => exact ⟨hs.1.tail (.traded hm ht hf), hs.2.trans (matchFront_sameTerms _ hf)⟩
    | error e => exact ⟨_, hs.1, .inr (.traded hm ht hf)⟩
  have hloop := Ends.whileLoop hbody (fun s hs => ⟨_, hs.1, .inl rfl⟩) fuel
    (b.note (.matching o b.toBook), o) ⟨.refl, .refl o⟩
  unfold MapOrderBook.matchOrder
  cases hk : o.isFok with
  | false => exact hloop.mono (fun _ h => h) (fun _ _ h => h.1.1)
  | true =>
    simp only [↓reduceIte]
    cases hc : (b.note (.matching o b.toBook)).canMatchOrder fuel o with
    | none => exact ⟨_, .refl, .inl rfl⟩
    | some possible =>
      cases possible with
      | false => exact .refl
      | true => exact hloop.mono (fun _ h => h) (fun _ _ h => h.1.1)

/-- When `match` returns, the order cannot trade any more unless it was killed. -/
theorem matchOrder_exit (h : b.matchOrder fuel o = .ok (b', o')) :
    o.SameTerms o' ∧ (o.isFok = false → b'.canTrade o' = false) := by
  have hloop (b₁ : MapOrderBook) (h : whileLoop (fun s : MapOrderBook × Order => s.1.canTrade s.2)
      (fun s => s.1.matchFront s.2) Prod.fst fuel (b₁, o) = .ok (b', o')) :
      o.SameTerms o' ∧ b'.canTrade o' = false :=
    whileLoop_inv (I := fun s => o.SameTerms s.2)
      (fun s s' hs _ hb => hs.trans (matchFront_sameTerms s.1 hb)) (.refl o) h
  unfold MapOrderBook.matchOrder at h
  cases hk : o.isFok with
  | false =>
    rw [hk] at h
    exact ⟨(hloop _ h).1, fun _ => (hloop _ h).2⟩
  | true =>
    simp only [hk, ↓reduceIte] at h
    cases hc : (b.note (.matching o b.toBook)).canMatchOrder fuel o with
    | none => rw [hc] at h; cases h
    | some possible =>
      rw [hc] at h
      cases possible with
      | false => cases h; exact ⟨.refl o, fun h => nomatch h⟩
      | true => exact ⟨(hloop _ h).1, fun h => nomatch h⟩

theorem addLimitOrder_runs (o : Order) (ho : o.type = .limit) :
    RunsTo WorkSteps ⟨b, some o⟩ (fun b => ⟨b, none⟩) (b.addLimitOrder fuel o) := by
  have hp : o.IsPriced := fun h => by
    rw [ho] at h
    cases h
  refine RunsTo.bind (matchOrder_runs fuel b o (.inl ho) hp) ?_
  rintro ⟨b', o'⟩ hm hs
  obtain ⟨ht, hx⟩ := matchOrder_exit fuel b hm
  have ho' : o'.type = .limit := ht.type.trans ho
  dsimp only
  split
  · rename_i hc
    simp only [Bool.and_eq_true, Bool.not_eq_true'] at hc
    have hf : o.isFok = false := by
      simpa only [Order.isFok, ht.timeInForce] using hc.2
    have hg : o'.timeInForce = .gtc := by
      cases htif : o'.timeInForce <;>
        simp_all only [Order.isFok, Order.isIoc, decide_eq_false_iff_not, reduceCtorEq,
          not_true_eq_false, and_false, false_and]
    exact .single (.rested ho' hg hc.1.1 (hx hf))
  · exact .single (.dropped (.inl ho'))

theorem addMarketOrder_runs (o : Order) (ho : o.type = .market) :
    RunsTo WorkSteps ⟨b, some o⟩ (fun b => ⟨b, none⟩) (b.addMarketOrder fuel o) := by
  refine RunsTo.after (.single (.priced ho)) ?_
  refine RunsTo.bind (matchOrder_runs fuel b _ (.inr ho) fun _ => rfl) ?_
  rintro ⟨b', o'⟩ hm hs
  have ht := (matchOrder_exit fuel b hm).1
  exact .single (.dropped (.inr (ht.type.trans ho)))

theorem activateFront_runs (t : LevelMap) (ht : t.IsStop) (hc : b.canActivate t p = true) :
    RunsTo WorkSteps ⟨b, none⟩ (fun b => ⟨b, none⟩) (b.activateFront fuel t) := by
  unfold MapOrderBook.activateFront
  unfold Book.canActivate at hc
  cases hf : b.firstStop t with
  | none => rw [hf] at hc; cases hc
  | some e =>
    obtain ⟨key, l⟩ := e
    dsimp only
    cases hfr : l.front with
    | none => exact ⟨_, .refl, .inr (.front hf (by simp [hfr]))⟩
    | some orderId =>
      dsimp only
      unfold MapOrderBook.orderAt
      cases hw : b.orders.find? orderId with
      | none => exact ⟨_, .refl, .inr (.front hf (by simp [hfr, hw]))⟩
      | some w =>
        change RunsTo WorkSteps _ _ (b.activateStopOrder fuel w.order)
        unfold MapOrderBook.activateStopOrder
        cases hd : b.deleteOrderWith w.order.id false with
        | error e => exact ⟨_, .refl, .inr (.activating hf hfr hw hd)⟩
        | ok b₁ =>
          refine RunsTo.after (.single (.activating ht hf hfr hw hd)) ?_
          rw [ok_bind]
          refine RunsTo.bind (g := fun b => ⟨b, none⟩) ?_ ?_
          · have hst : (((w.order.setStopPrice 0).setTrailAmount 0).isStop ||
                ((w.order.setStopPrice 0).setTrailAmount 0).isTrailingStop) =
                (w.order.isStop || w.order.isTrailingStop) := rfl
            rw [hst]
            unfold Order.activate
            split
            · exact addMarketOrder_runs fuel _ _ rfl
            · exact addLimitOrder_runs fuel _ _ rfl
          · intro b₂ _ _
            exact .single .activated

theorem activateLevels_runs (t : LevelMap) (ht : t.IsStop) (p : UInt64) (flag : Bool) :
    RunsTo WorkSteps ⟨b, none⟩ (fun r => ⟨r.1, none⟩)
      (MapOrderBook.activateLevels fuel t p (b, flag)) := by
  refine (Ends.whileLoop (I := fun s => WorkSteps ⟨b, none⟩ ⟨s.1, none⟩) ?_ ?_ fuel (b, flag)
    .refl).mono (fun _ h => h) (fun _ _ h => h.1)
  · intro s hs hc
    refine RunsTo.bind (g := fun b => ⟨b, none⟩) (RunsTo.after hs ?_) ?_
    · exact activateFront_runs fuel s.1 t ht hc
    · intro b' _ _
      exact .refl
  · exact fun s hs => ⟨_, hs, .inl rfl⟩

theorem activateBidStopOrders_runs :
    RunsTo WorkSteps ⟨b, none⟩ (fun r => ⟨r.1, none⟩) (b.activateBidStopOrders fuel) :=
  RunsTo.bind (activateLevels_runs fuel b _ (by simp [LevelMap.IsStop]) _ _) fun r _ _ =>
    activateLevels_runs fuel r.1 _ (by simp [LevelMap.IsStop]) _ _

theorem activateAskStopOrders_runs :
    RunsTo WorkSteps ⟨b, none⟩ (fun r => ⟨r.1, none⟩) (b.activateAskStopOrders fuel) :=
  RunsTo.bind (activateLevels_runs fuel b _ (by simp [LevelMap.IsStop]) _ _) fun r _ _ =>
    activateLevels_runs fuel r.1 _ (by simp [LevelMap.IsStop]) _ _

theorem updateStopOrders_runs (side : OrderSide) :
    RunsTo (Steps Adm) ⟨b, none⟩ (fun b => ⟨b, none⟩) (b.updateStopOrders side) := by
  cases h : b.updateStopOrders side with
  | ok b' => exact .single (.updated h)
  | error e => exact ⟨_, .refl, .inr (.updated h)⟩

theorem activatePass_runs :
    RunsTo (Steps Adm) ⟨b, none⟩ (fun r => ⟨r.1, none⟩) (b.activatePass fuel) := by
  refine RunsTo.bind (g := fun r => ⟨r.1, none⟩) (activateBidStopOrders_runs fuel b).steps ?_
  rintro ⟨b₁, f₁⟩ _ _
  refine RunsTo.bind (g := fun b => ⟨b, none⟩) ?_ ?_
  · exact updateStopOrders_runs b₁ .ask
  intro b₂ _ _
  refine RunsTo.bind (g := fun r => ⟨r.1, none⟩) (activateAskStopOrders_runs fuel b₂).steps ?_
  rintro ⟨b₃, f₃⟩ _ _
  refine RunsTo.bind (g := fun b => ⟨b, none⟩) ?_ (fun _ _ _ => .refl)
  exact updateStopOrders_runs b₃ .bid

theorem activateStopOrders_runs :
    RunsTo (Steps Adm) ⟨b, none⟩ (fun b => ⟨b, none⟩) (b.activateStopOrders fuel) := by
  refine RunsTo.bind (g := fun r => ⟨r.1, none⟩) ?_ ?_
  case refine_2 => exact fun ⟨_, _⟩ _ _ => ReflTransGen.refl
  refine (Ends.whileLoop (I := fun s => Steps Adm ⟨b, none⟩ ⟨s.1, none⟩) ?_ ?_ fuel (b, true)
    .refl).mono (fun _ h => h) (fun _ _ h => h.1)
  · exact fun s hs _ => RunsTo.after hs (activatePass_runs fuel s.1)
  · exact fun s hs => ⟨_, hs, .inl rfl⟩

theorem triggered_runs (o : Order) (ho : o.IsStopType) (ht : b.stopTriggered o = true) :
    RunsTo (Steps Adm) ⟨b, some o⟩ (fun b => ⟨b, none⟩)
      (if o.activate.isMarket then
        (b.emit (.orderUpdated o.activate)).addMarketOrder fuel o.activate
      else (b.emit (.orderUpdated o.activate)).addLimitOrder fuel o.activate) := by
  refine RunsTo.after (.single (.triggered ho ht)) ?_
  split
  · rename_i hm
    exact (addMarketOrder_runs fuel _ _ (of_decide_eq_true hm)).steps
  · rename_i hm
    refine (addLimitOrder_runs fuel _ _ ?_).steps
    by_cases hs : (o.isStop || o.isTrailingStop) = true
    · simp [Order.activate, hs, Order.isMarket, Order.setType] at hm
    · simp [Order.activate, hs, Order.setType]

theorem calculateStopPrice_idem (b : Book) (o : Order) :
    b.calculateStopPrice (b.calculateStopPrice o) = b.calculateStopPrice o := rfl

theorem addStopOrder_runs (o : Order) (ho : o.IsStopType) :
    RunsTo (Steps Adm) ⟨b, some o⟩ (fun b => ⟨b, none⟩) (b.addStopOrder fuel o) := by
  have htr (o : Order) : (o.isTrailingStop || o.isTrailingStopLimit) = true ↔ o.IsTrailing := by
    simp [Order.isTrailingStop, Order.isTrailingStopLimit, Order.IsTrailing]
  unfold MapOrderBook.addStopOrder
  by_cases ht : o.IsTrailing
  · have ht' : (b.calculateStopPrice o).IsTrailing := ht
    rw [if_pos ((htr o).2 ht)]
    refine RunsTo.after (.single (.trailed ht)) ?_
    by_cases hs : b.stopTriggered (b.calculateStopPrice o) = true
    · rw [if_pos hs]
      exact triggered_runs fuel b _ (.inr (.inr ht')) hs
    · rw [if_neg hs, if_pos ((htr _).2 ht')]
      exact .single (.restedTrailing ht' (calculateStopPrice_idem _ o).symm (by simpa using hs))
  · rw [if_neg (fun h => ht ((htr o).1 h))]
    by_cases hs : b.stopTriggered o = true
    · rw [if_pos hs]
      exact triggered_runs fuel b _ ho hs
    · rw [if_neg hs, if_neg (fun h => ht ((htr o).1 h))]
      refine .single (.restedStop ?_ (by simpa using hs))
      rcases ho with h | h | h
      · exact .inl h
      · exact .inr h
      · exact absurd h ht

/-- What `addOrder` does with an order once it is announced. -/
theorem announced_runs (o : Order) :
    RunsTo (Steps Adm) ⟨b.emit (.orderAdded o), some o⟩ (fun b => ⟨b, none⟩)
      (b.submitOrder fuel o) := by
  unfold MapOrderBook.submitOrder
  cases ht : o.type with
  | limit => exact (addLimitOrder_runs fuel _ o ht).steps
  | market => exact (addMarketOrder_runs fuel _ o ht).steps
  | stop => exact addStopOrder_runs fuel _ o (.inl ht)
  | stopLimit => exact addStopOrder_runs fuel _ o (.inr (.inl ht))
  | trailingStop => exact addStopOrder_runs fuel _ o (.inr (.inr (.inl ht)))
  | trailingStopLimit => exact addStopOrder_runs fuel _ o (.inr (.inr (.inr ht)))

theorem submitOrder_runs (o : Order) (ho : Adm b.toBook (.submit o)) :
    RunsTo (Steps Adm) ⟨b, none⟩ (fun b => ⟨b, none⟩) (b.submitOrder fuel o) :=
  RunsTo.after (.single (.added ho)) (announced_runs fuel b o)

theorem addOrder_runs (o : Order) (ho : Adm b.toBook (.submit o)) :
    RunsTo (Steps Adm) ⟨b, none⟩ (fun b => ⟨b, none⟩) (b.addOrder fuel o) :=
  RunsTo.bind (submitOrder_runs fuel b o ho) fun b' _ _ => activateStopOrders_runs fuel b'

end Functions

/-- The order that `replaceOrder` submits. -/
def Order.replaced (o : Order) (newOrderId newPrice : UInt64) : Order :=
  (o.setOrderID newOrderId).setPrice newPrice

/-- The requests an operation makes are admissible. -/
def Op.Admits (Adm : Book → Request → Prop) (b : MapOrderBook) : Op → Prop
  | .addOrder order => Adm b.toBook (.submit order)
  | .executeOrderAt orderId quantity price =>
    Adm b.toBook (.execute orderId quantity (fun _ => price))
  | .executeOrder orderId quantity => Adm b.toBook (.execute orderId quantity Order.price)
  | .cancelOrder orderId quantity => Adm b.toBook (.cancel orderId quantity)
  | .deleteOrder orderId => Adm b.toBook (.delete orderId)
  | .replaceOrder orderId newOrderId newPrice => Adm b.toBook (.delete orderId) ∧
      ∀ w b', b.orders.find? orderId = some w → b.deleteOrderWith orderId true = .ok b' →
        Adm b'.toBook (.submit (w.order.replaced newOrderId newPrice))

/-- The part of an operation that needs a resting order returns. -/
def Op.Starts (b : MapOrderBook) : Op → Prop
  | .addOrder _ => True
  | .executeOrderAt orderId quantity price =>
    ∃ b', b.executeResting orderId quantity (fun _ => price) = .ok b'
  | .executeOrder orderId quantity => ∃ b', b.executeResting orderId quantity Order.price = .ok b'
  | .cancelOrder orderId quantity => ∃ b', b.cancelResting orderId quantity = .ok b'
  | .deleteOrder orderId | .replaceOrder orderId _ _ =>
    ∃ b', b.deleteOrderWith orderId true = .ok b'

theorem Op.starts_of_ok (h : MapOrderBook.apply fuel b op = .ok b') : op.Starts b := by
  cases op with
  | addOrder o => trivial
  | replaceOrder i i' p =>
    obtain ⟨w, _, h⟩ := bind_eq_ok.1 h
    obtain ⟨b₁, hd, _⟩ := bind_eq_ok.1 h
    exact ⟨b₁, hd⟩
  | _ =>
    obtain ⟨b₁, hd, _⟩ := bind_eq_ok.1 h
    exact ⟨b₁, hd⟩

/-- Every public operation is a sequence of steps, and it stops only where its fuel runs out or an
entry is missing. -/
theorem apply_runs (fuel : Nat) (b : MapOrderBook) (op : Op) (h : op.Admits Adm b)
    (hs : op.Starts b) :
    RunsTo (Steps Adm) ⟨b, none⟩ (fun b => ⟨b, none⟩) (b.apply fuel op) := by
  -- after its direct part an operation runs the cascade
  have hcascade {x : Exec MapOrderBook} {b₁ : MapOrderBook} (hx : x = .ok b₁)
      (h₁ : Step Adm ⟨b, none⟩ ⟨b₁, none⟩) : RunsTo (Steps Adm) ⟨b, none⟩ (fun b => ⟨b, none⟩)
        (x >>= MapOrderBook.activateStopOrders fuel) := by
    rw [hx]
    exact RunsTo.after (.single h₁) (activateStopOrders_runs fuel b₁)
  cases op with
  | addOrder o => exact addOrder_runs fuel b o h
  | executeOrderAt i q p =>
    obtain ⟨b₁, h₁⟩ := hs
    exact hcascade h₁ (.executed h h₁)
  | executeOrder i q =>
    obtain ⟨b₁, h₁⟩ := hs
    exact hcascade h₁ (.executed h h₁)
  | cancelOrder i q =>
    obtain ⟨b₁, h₁⟩ := hs
    exact hcascade h₁ (.cancelled h h₁)
  | deleteOrder i =>
    obtain ⟨b₁, h₁⟩ := hs
    exact hcascade h₁ (.deleted h h₁)
  | replaceOrder i i' p =>
    obtain ⟨b₁, h₁⟩ := hs
    obtain ⟨w, hw, _⟩ := bind_eq_ok.1 h₁
    change RunsTo _ _ _ (b.replaceOrder fuel i i' p)
    unfold MapOrderBook.replaceOrder
    rw [hw, ok_bind, h₁, ok_bind]
    rw [orderAt_eq_ok] at hw
    refine RunsTo.after (.single (.deleted h.1 h₁)) ?_
    exact RunsTo.bind (addOrder_runs fuel b₁ _ (h.2 w b₁ hw h₁)) fun b' _ _ =>
      activateStopOrders_runs fuel b'

theorem apply_steps (h : MapOrderBook.apply fuel b op = .ok b') (ha : op.Admits Adm b) :
    Steps Adm ⟨b, none⟩ ⟨b', none⟩ :=
  (apply_runs fuel b op ha (Op.starts_of_ok h)).of_ok h

end RapidTrader
