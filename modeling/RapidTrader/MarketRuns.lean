import RapidTrader.Market
import RapidTrader.Retelling
import RapidTrader.Runs

namespace RapidTrader
open Lib Relation Function
set_option autoImplicit true

def Market.hasSymbol (m : Market) (symbolId : UInt32) : Bool := (m.idToSymbol symbolId).isSome

/-! ### The symbols of a market -/

/-- The symbol a call is about. `toString` is about none. -/
def Call.symbolId? : Call → Option UInt32
  | addSymbol symbolId _ | deleteSymbol symbolId => some symbolId
  | order c => some c.symbolId
  | toString => none

/-- The calls about one symbol. -/
def callsOf (symbolId : UInt32) (calls : List Call) : List Call :=
  calls.filter (·.symbolId? = some symbolId)

/-- What a market holds of a symbol and has told of it, and the name of the symbol. -/
def Market.view (symbolId : UInt32) (m : Market) : (Option Book × List Event) × Option String :=
  (m.orderbookHandler.view symbolId, m.idToSymbol symbolId)

/-- The call a market makes of its handler, when it knows a symbol by the name `name?`, and the name
it knows it by afterwards. -/
def Call.delegated (name? : Option String) : Call → Option (HandlerCall × Option String)
  | addSymbol symbolId symbolName =>
    some (.addOrderBook symbolId symbolName, some (name?.getD symbolName))
  | deleteSymbol symbolId => name?.map fun name => (.deleteOrderBook symbolId name, none)
  | order c => some (.order c, name?)
  | toString => none

theorem Call.delegated_symbolId {a : Call} (hk : a.symbolId? = some symbolId)
    (hd : a.delegated name? = some (c, name')) : c.symbolId = symbolId := by
  cases a with
  | addSymbol _ _ =>
    cases hk
    cases hd
    rfl
  | deleteSymbol _ =>
    cases hk
    obtain ⟨name, _, he⟩ := Option.map_eq_some_iff.1 hd
    cases he
    rfl
  | order _ =>
    cases hk
    cases hd
    rfl
  | toString => cases hk

theorem Market.call_eq (fuel : Nat) (m : Market) {a : Call} (hk : a.symbolId? = some symbolId) :
    m.call fuel a = (a.delegated (m.idToSymbol symbolId)).bind fun r =>
      (r.1.answer fuel (m.orderbookHandler.idToBook symbolId)).map fun h =>
        ⟨m.orderbookHandler.put symbolId h, update m.idToSymbol symbolId r.2⟩ := by
  have hcall (c : HandlerCall) (name? : Option String) (hc : c.symbolId = symbolId) :
      (OrderBookHandler.handle fuel c m.orderbookHandler).map
          (fun h => (⟨h, update m.idToSymbol symbolId name?⟩ : Market)) =
        (c.answer fuel (m.orderbookHandler.idToBook symbolId)).map fun h =>
          ⟨m.orderbookHandler.put symbolId h, update m.idToSymbol symbolId name?⟩ := by
    rw [OrderBookHandler.handle_eq, hc, Option.map_map]
    rfl
  cases a with
  | addSymbol _ symbolName =>
    cases hk
    exact hcall (.addOrderBook symbolId symbolName) _ rfl
  | deleteSymbol _ =>
    cases hk
    change (m.idToSymbol symbolId).bind _ = ((m.idToSymbol symbolId).map _).bind _
    rw [Option.bind_map]
    exact congrArg _ (funext fun name => hcall (.deleteOrderBook symbolId name) none rfl)
  | order c =>
    cases hk
    change m.order fuel c = _
    rw [Market.order_eq, Market.delegate]
    have hm := hcall (.order c) (m.idToSymbol c.symbolId) rfl
    rw [update_eq_self] at hm
    rw [hm]
    change _ = Option.map _ _
    rw [update_eq_self]
  | toString => cases hk

/-- The symbols of a market do not interfere. -/
theorem market_keyed (fuel : Nat) : Keyed (Market.call fuel) Call.symbolId? Market.view
    (fun m => m.orderbookHandler.OwnSymbols) := by
  have hstep {symbolId : UInt32} {a : Call} {m m' : Market}
      (ho : m.orderbookHandler.OwnSymbols)
      (hk : a.symbolId? = some symbolId) (hm : m.call fuel a = some m') :
      ∃ c name? r, a.delegated (m.idToSymbol symbolId) = some (c, name?) ∧
        c.answer fuel (m.orderbookHandler.idToBook symbolId) = some r ∧
        m' = ⟨m.orderbookHandler.put symbolId r, update m.idToSymbol symbolId name?⟩ ∧
        (∀ book i w, r.1 = some book → book.orders.find? i = some w →
          w.order.symbolId = symbolId) ∧ ∀ e ∈ r.2, e.symbolId = symbolId := by
    rw [Market.call_eq fuel m hk] at hm
    obtain ⟨⟨c, name?⟩, hd, hm⟩ := Option.bind_eq_some_iff.1 hm
    obtain ⟨r, hr, rfl⟩ := Option.map_eq_some_iff.1 hm
    have hc := Call.delegated_symbolId hk hd
    obtain ⟨hown, htold⟩ := HandlerCall.answer_own
      (fun book i w hb hw => (ho _ book i w hb hw).trans hc.symm) hr
    rw [hc] at hown htold
    exact ⟨c, name?, r, hd, hr, rfl, hown, htold⟩
  constructor
  · intro m l a symbolId m' hm hl hk hv hc
    obtain ⟨c, name?, r, hd, hr, rfl, hown, htold⟩ := hstep hm hk hc
    have hbook : m.orderbookHandler.idToBook symbolId = l.orderbookHandler.idToBook symbolId :=
      congrArg (fun v => v.1.1) hv
    have hname : m.idToSymbol symbolId = l.idToSymbol symbolId := congrArg Prod.snd hv
    have hview : m.orderbookHandler.view symbolId = l.orderbookHandler.view symbolId :=
      congrArg Prod.fst hv
    refine ⟨⟨l.orderbookHandler.put symbolId r, update l.idToSymbol symbolId name?⟩, ?_, ?_⟩
    · rw [Market.call_eq fuel l hk, ← hname, ← hbook, hd, Option.bind_some, hr]
      rfl
    · unfold Market.view
      dsimp only
      rw [OrderBookHandler.view_put _ _ _ _ htold, OrderBookHandler.view_put _ _ _ _ htold, hview,
        update_self, update_self]
  · intro m a m' symbolId hm hc hk
    cases ha : a.symbolId? with
    | none =>
      cases a with
      | toString =>
        cases hc
        rfl
      | _ => cases ha
    | some symbolId' =>
      obtain ⟨c, name?, r, hd, hr, rfl, hown, htold⟩ := hstep hm ha hc
      have hne : symbolId ≠ symbolId' := by
        rintro rfl
        exact hk ha
      unfold Market.view
      dsimp only
      rw [OrderBookHandler.view_put _ _ _ _ htold, if_neg hne, update_of_ne hne]
  · intro a m ha
    cases a with
    | toString => exact ⟨m, rfl⟩
    | _ => cases ha
  · intro m a m' hm hc symbolId book i w hb hw
    cases ha : a.symbolId? with
    | none =>
      cases a with
      | toString =>
        cases hc
        exact hm symbolId book i w hb hw
      | _ => cases ha
    | some symbolId' =>
      obtain ⟨c, name?, r, hd, hr, rfl, hown, htold⟩ := hstep hm ha hc
      change update m.orderbookHandler.idToBook symbolId' r.1 symbolId = some book at hb
      by_cases hs : symbolId = symbolId'
      · subst hs
        rw [update_self] at hb
        exact hown book i w hb hw
      · rw [update_of_ne hs] at hb
        exact hm symbolId book i w hb hw

theorem ownSymbols_new : Market.new.orderbookHandler.OwnSymbols := fun _ _ _ _ hb => by cases hb

/-- A market is the product of its symbols: it takes a sequence of calls exactly if it takes the
calls about each symbol alone, and then holds and has told of each symbol what it does after these.
So calls about different symbols may change places. -/
theorem market_is_product (fuel : Nat) (calls : List Call) :
    ((∃ m, Market.run fuel calls = some m) ↔
      ∀ symbolId, ∃ m, Market.run fuel (callsOf symbolId calls) = some m) ∧
    ∀ m, Market.run fuel calls = some m → ∀ calls', (∀ symbolId, callsOf symbolId calls' =
      callsOf symbolId calls) → ∃ m', Market.run fuel calls' = some m' ∧
        ∀ symbolId, m'.view symbolId = m.view symbolId := by
  have hk := market_keyed fuel
  have hnew := ownSymbols_new
  refine ⟨⟨fun h symbolId => ?_, fun h => hk.exists_run hnew h⟩, fun m hm calls' hc => ?_⟩
  · obtain ⟨m, hm⟩ := h
    obtain ⟨m', hm', _⟩ := hk.run_filter (k := symbolId) hnew hnew rfl hm
    exact ⟨m', hm'⟩
  · have hex : ∃ m', Market.run fuel calls' = some m' := hk.exists_run hnew fun symbolId => by
      obtain ⟨m', hm', _⟩ := hk.run_filter (k := symbolId) hnew hnew rfl hm
      exact ⟨m', (congrArg (Market.run fuel) (hc symbolId)).trans hm'⟩
    obtain ⟨m', hm'⟩ := hex
    exact ⟨m', hm', fun symbolId => hk.view_eq hnew hnew rfl (hc symbolId) hm' hm⟩

/-- The symbol 1 is deleted and added again, with an order of the symbol 2 in between. -/
def mixedCalls : List Call :=
  [.addSymbol 1 "A", .order (.addOrder (.new .limit .bid .gtc 1 90 0 0 5 1)), .addSymbol 2 "B",
    .deleteSymbol 1, .order (.addOrder (.new .limit .ask .gtc 2 95 0 0 5 1)), .addSymbol 1 "C",
    .order (.addOrder (.new .limit .bid .gtc 1 80 0 0 5 1)), .order (.cancelOrder 2 1 2)]

/-- The symbol 2 comes first. -/
def sortedCalls : List Call :=
  [.addSymbol 2 "B", .order (.addOrder (.new .limit .ask .gtc 2 95 0 0 5 1)),
    .order (.cancelOrder 2 1 2), .addSymbol 1 "A",
    .order (.addOrder (.new .limit .bid .gtc 1 90 0 0 5 1)), .deleteSymbol 1, .addSymbol 1 "C",
    .order (.addOrder (.new .limit .bid .gtc 1 80 0 0 5 1))]

theorem market_is_product_mixedCalls : ∃ m m' : Market, Market.run 9 mixedCalls = some m ∧
    Market.run 9 sortedCalls = some m' ∧ ∀ symbolId, m'.view symbolId = m.view symbolId := by
  have hsome : (Market.run 9 mixedCalls).isSome = true := by decide +kernel
  obtain ⟨m, hm⟩ := Option.isSome_iff_exists.1 hsome
  obtain ⟨m', hm', hv⟩ := (market_is_product 9 mixedCalls).2 m hm sortedCalls fun symbolId => by
    by_cases h₁ : symbolId = 1
    · subst h₁
      rfl
    · by_cases h₂ : symbolId = 2
      · subst h₂
        rfl
      · simp [callsOf, mixedCalls, sortedCalls, Call.symbolId?, OrderCall.symbolId, Order.new,
          Ne.symm h₁, Ne.symm h₂]
  exact ⟨m, m', hm, hm', hv⟩

/-! ### The books of a market -/

/-- The operation that a call asks of the book of its symbol is legal there. -/
def Call.Legal (m : Market) : Call → Prop
  | order c => ∀ book ∈ m.orderbookHandler.idToBook c.symbolId, c.op.Legal book
  | addSymbol _ _ | deleteSymbol _ | toString => True

instance (m : Market) : (a : Call) → Decidable (a.Legal m)
  | .order c => inferInstanceAs (Decidable (∀ book ∈ m.orderbookHandler.idToBook c.symbolId, _))
  | .addSymbol _ _ | .deleteSymbol _ | .toString => inferInstanceAs (Decidable True)

/-- Each call of a sequence is legal in its turn. -/
def LegalCalls (fuel : Nat) (m : Market) : List Call → Prop
  | [] => True
  | a :: calls => a.Legal m ∧ ∀ m' ∈ m.call fuel a, LegalCalls fuel m' calls

instance legalCallsDecidable (fuel : Nat) (m : Market) : (calls : List Call) →
    Decidable (LegalCalls fuel m calls)
  | [] => inferInstanceAs (Decidable True)
  | a :: calls =>
    have (m' : Market) : Decidable (LegalCalls fuel m' calls) := legalCallsDecidable fuel m' calls
    inferInstanceAs (Decidable (a.Legal m ∧ ∀ m' ∈ m.call fuel a, _))

theorem LegalCalls.of_append (h : LegalCalls fuel m (calls ++ calls')) :
    LegalCalls fuel m calls := by
  induction calls generalizing m with
  | nil => trivial
  | cons a calls ih => exact ⟨h.1, fun m' hm => ih (h.2 m' hm)⟩

/-- What a market holds of a symbol is what a book of its own, which gets the calls about the symbol
only, has come to since the symbol was added. -/
structure Backed (symbolId : UInt32) (v : (Option Book × List Event) × Option String) : Prop where
  named : v.1.1 = none ↔ v.2 = none
  book : ∀ book, v.1.1 = some book → ∃ trace name earlier,
    Reachable Op.Legal symbolId ⟨book, trace⟩ ∧
    v.2 = some name ∧ v.1.2 = earlier ++ .symbolAdded symbolId name :: events trace

theorem Backed.new (symbolId : UInt32) : Backed symbolId (Market.new.view symbolId) :=
  ⟨⟨fun _ => rfl, fun _ => rfl⟩, fun book hb => by cases hb⟩

/-- A call about a symbol keeps it backed. -/
theorem Backed.answer {a : Call} {c : HandlerCall} {r : Option Book × List Event}
    (h : Backed symbolId ((book?, es), name?)) (hd : a.delegated name? = some (c, name'))
    (hk : a.symbolId? = some symbolId) (hr : c.answer fuel book? = some r)
    (hl : ∀ o book, a = .order o → book? = some book → o.op.Legal book) :
    Backed symbolId ((r.1, es ++ r.2), name') := by
  cases a with
  | addSymbol symbolId symbolName =>
    cases hk
    cases hd
    cases book? with
    | some _ => cases hr
    | none =>
      cases hr
      have hname : name? = none := h.named.1 rfl
      refine ⟨by simp [hname], fun book hb => ?_⟩
      cases hb
      exact ⟨[], symbolName, es, .new, by rw [hname]; rfl, rfl⟩
  | deleteSymbol symbolId =>
    cases hk
    obtain ⟨name, _, he⟩ := Option.map_eq_some_iff.1 hd
    cases he
    cases book? with
    | none => cases hr
    | some _ =>
      cases hr
      exact ⟨by simp, fun book hb => by cases hb⟩
  | order o =>
    cases hk
    cases hd
    cases book? with
    | none => cases hr
    | some book =>
      unfold HandlerCall.answer at hr
      dsimp only at hr
      split at hr
      · rename_i b _ hb
        cases hr
        obtain ⟨trace, name, earlier, hreach, hname, hes⟩ := h.book _ rfl
        obtain ⟨b', hb', hbook, ns, ht, ht'⟩ :=
          (Retells.refl ⟨book, []⟩ ⟨book, trace⟩ rfl).apply (Nat.le_refl fuel) o.op b hb
        have hnext : Reachable Op.Legal o.symbolId ⟨b.toBook, b'.trace⟩ := by
          rw [← hbook]
          exact .apply hreach (hl o book rfl rfl) hb'
        refine ⟨by simpa using h.named, fun book hb => ?_⟩
        cases hb
        refine ⟨b'.trace, name, earlier, hnext, hname, ?_⟩
        dsimp only at hes ⊢
        rw [hes, ht, ht', events_append, events_append, List.append_assoc, List.cons_append]
        rfl
      · cases hr
  | toString => cases hk

/-- A legal call keeps every symbol backed. -/
theorem Backed.call {m m' : Market} {a : Call} (ho : m.orderbookHandler.OwnSymbols)
    (h : ∀ symbolId, Backed symbolId (m.view symbolId)) (hl : a.Legal m)
    (hm : m.call fuel a = some m') (symbolId : UInt32) : Backed symbolId (m'.view symbolId) := by
  by_cases hk : a.symbolId? = some symbolId
  · have hc := hm
    rw [Market.call_eq fuel m hk] at hc
    obtain ⟨⟨c, name?⟩, hd, hc⟩ := Option.bind_eq_some_iff.1 hc
    obtain ⟨r, hr, rfl⟩ := Option.map_eq_some_iff.1 hc
    have hsym := Call.delegated_symbolId hk hd
    obtain ⟨_, htold⟩ := HandlerCall.answer_own
      (fun book i w hb hw => (ho _ book i w hb hw).trans hsym.symm) hr
    rw [hsym] at htold
    have hb := (h symbolId).answer hd hk hr fun o book ha hb => by
      cases ha
      cases hk
      exact hl book hb
    unfold Market.view
    dsimp only
    rw [OrderBookHandler.view_put _ _ _ _ htold, if_pos rfl, update_self]
    exact hb
  · rw [(market_keyed fuel).frame ho hm hk]
    exact h symbolId

theorem Backed.run {m m' : Market} (ho : m.orderbookHandler.OwnSymbols)
    (h : ∀ symbolId, Backed symbolId (m.view symbolId)) (hl : LegalCalls fuel m calls)
    (hm : runAll (Market.call fuel) m calls = some m') (symbolId : UInt32) :
    Backed symbolId (m'.view symbolId) := by
  induction calls generalizing m with
  | nil =>
    cases hm
    exact h symbolId
  | cons a calls ih =>
    obtain ⟨m₁, hc, hm⟩ := Option.bind_eq_some_iff.1 hm
    exact ih ((market_keyed fuel).good ho hc) (Backed.call ho h hl.1 hc) (hl.2 m₁ hc) hm

/-- Every book of a market is one that legal operations lead to, so what is true of these is true of
the books of a market. The events about its symbol are those of this book, after that of the
symbol's addition. The market has a symbol exactly if it has a book for it. -/
theorem market_books_reachable {m : Market} (hm : Market.run fuel calls = some m)
    (hl : LegalCalls fuel .new calls) (symbolId : UInt32) :
    (m.hasSymbol symbolId = true ↔ m.orderbookHandler.idToBook symbolId ≠ none) ∧
    ∀ book, m.orderbookHandler.idToBook symbolId = some book →
      ∃ trace name earlier, Reachable Op.Legal symbolId ⟨book, trace⟩ ∧
        m.idToSymbol symbolId = some name ∧
        m.orderbookHandler.events.filter (·.symbolId = symbolId) =
          earlier ++ .symbolAdded symbolId name :: events trace := by
  have hb := Backed.run ownSymbols_new .new hl hm symbolId
  refine ⟨?_, hb.book⟩
  unfold Market.hasSymbol
  rw [Option.isSome_iff_ne_none]
  exact not_congr hb.named.symm

theorem market_books_reachable_mixedCalls : ∃ (m : Market) (book : Book) (trace : List Note),
    Market.run 9 mixedCalls = some m ∧ m.orderbookHandler.idToBook 1 = some book ∧
    Reachable Op.Legal 1 ⟨book, trace⟩ := by
  have hsome : ((Market.run 9 mixedCalls).bind fun m =>
      m.orderbookHandler.idToBook 1).isSome = true := by decide +kernel
  obtain ⟨book, hb⟩ := Option.isSome_iff_exists.1 hsome
  obtain ⟨m, hm, hb⟩ := Option.bind_eq_some_iff.1 hb
  obtain ⟨trace, _, _, hr, _⟩ := (market_books_reachable hm (by decide +kernel) 1).2 book hb
  exact ⟨m, book, trace, hm, hb, hr⟩

end RapidTrader
