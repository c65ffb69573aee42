import RapidTrader.Acts

namespace RapidTrader
open Lib
set_option autoImplicit true

/-- The order that a note shows entering the book's hands: one that is added, or one that is
activated or changed. -/
def Note.entered : Note → Option Order
  | .event (.orderAdded o) | .event (.orderUpdated o) => some o
  | .event (.orderDeleted _) | .event (.executedOrder _) | .event (.symbolAdded _ _)
  | .event (.symbolDeleted _ _) | .matching _ _ | .trade _ _ _ _ | .activated _ _
  | .updating _ _ => none

/-- The order that entered last. While the code matches, it is the incoming order. -/
def newest (trace : List Note) : Option Order := (trace.filterMap Note.entered).getLast?

theorem newest_append (t ns : List Note) : newest (t ++ ns) = (newest ns).or (newest t) := by
  rw [newest, List.filterMap_append, List.getLast?_append]
  rfl

/-- A trade of the incoming order at the limit price of the order it meets, within both prices.
`pre` is the trace before the trade, and `post` starts with the two executions. -/
def TradeProtected (pre : List Note) (bidId askId price : UInt64) (post : List Note) : Prop :=
  ∃ incoming bid ask rest, newest pre = some incoming ∧
    post = .event (.executedOrder bid) :: .event (.executedOrder ask) :: rest ∧
    bid.id = bidId ∧ ask.id = askId ∧ bidId ≠ askId ∧ bid.side = .bid ∧ ask.side = .ask ∧
    ask.price ≤ price ∧ price ≤ bid.price ∧
    ((incoming.id = bidId ∧ ask.type = .limit ∧ ask.price = price) ∨
      (incoming.id = askId ∧ bid.type = .limit ∧ bid.price = price))

/-- All trades of a trace are protected. -/
def Protected (trace : List Note) : Prop :=
  ∀ pre bidId askId price quantity post,
    trace = pre ++ .trade bidId askId price quantity :: post →
    TradeProtected pre bidId askId price post

theorem TradeProtected.append (h : TradeProtected pre i j p post) (ns : List Note) :
    TradeProtected pre i j p (post ++ ns) := by
  obtain ⟨o, bid, ask, rest, hn, rfl, h⟩ := h
  exact ⟨o, bid, ask, rest ++ ns, hn, rfl, h⟩

/-- An element of two lists put together is in the first or in the second. -/
theorem split_append {t ns pre post : List α} (h : t ++ ns = pre ++ n :: post) :
    (∃ rest, t = pre ++ n :: rest ∧ post = rest ++ ns) ∨
      ∃ rest, pre = t ++ rest ∧ ns = rest ++ n :: post := by
  rcases List.append_eq_append_iff.1 h with ⟨rest, hp, hns⟩ | ⟨rest, ht, hns⟩
  · exact .inr ⟨rest, hp, hns⟩
  · cases rest with
    | nil => exact .inr ⟨[], by rw [ht, List.append_nil, List.append_nil], hns.symm⟩
    | cons m rest =>
      cases hns
      exact .inl ⟨rest, ht, rfl⟩

theorem Protected.append (h : Protected t)
    (hns : ∀ pre bidId askId price quantity post,
      ns = pre ++ .trade bidId askId price quantity :: post →
      TradeProtected (t ++ pre) bidId askId price post) : Protected (t ++ ns) := by
  intro pre bidId askId price quantity post he
  rcases split_append he with ⟨rest, ht, rfl⟩ | ⟨rest, rfl, hs⟩
  · exact (h _ _ _ _ _ _ ht).append ns
  · exact hns _ _ _ _ _ _ hs

theorem Protected.append_quiet (h : Protected t)
    (hns : ∀ n ∈ ns, ∀ bidId askId price quantity, n ≠ .trade bidId askId price quantity) :
    Protected (t ++ ns) := by
  apply h.append
  rintro pre bidId askId price quantity post rfl
  exact absurd rfl (hns _ (List.mem_append_right _ List.mem_cons_self) bidId askId price quantity)

/-- All trades are protected, and the order in hand is the one that entered last. -/
structure Guarded (v : View) (t : List Note) : Prop where
  trades : Protected t
  hand : v.hand = some i → ∃ o, newest t = some o ∧ o.id = i

namespace Guarded

theorem new : Guarded ⟨fun _ => none, none, 0⟩ [] := by
  constructor
  · intro pre bidId askId price quantity post he
    have := congrArg List.length he
    simp at this
  · exact nofun

/-- An event other than a trade keeps all that holds. -/
theorem event (h : Guarded v t) (e : Event)
    (hand : ∀ i, v'.hand = some i → (v.hand = some i ∧ Note.entered (.event e) = none) ∨
      ∃ o, Note.entered (.event e) = some o ∧ o.id = i) : Guarded v' (t ++ [.event e]) := by
  constructor
  · apply h.trades.append_quiet
    intro n hn
    rw [List.mem_singleton.1 hn]
    exact fun _ _ _ _ => nofun
  · intro i hi
    rw [newest_append]
    rcases hand i hi with ⟨hi, he⟩ | ⟨o, he, ho⟩
    · obtain ⟨o, hn, ho⟩ := h.hand hi
      refine ⟨o, ?_, ho⟩
      rw [newest, List.filterMap_cons_none he]
      exact hn
    · refine ⟨o, ?_, ho⟩
      rw [newest, List.filterMap_cons_some he]
      rfl

theorem act (h : Guarded v t) (ha : Act Adm v ns v') : Guarded v' (t ++ ns) := by
  cases ha with
  | @quiet _ n hn _ =>
    constructor
    · apply h.trades.append_quiet
      intro n' hn' i j p q he
      rw [List.mem_singleton.1 hn'] at he
      subst he
      exact hn trivial
    · intro i hi
      rw [newest_append, newest, List.filterMap_cons_none]
      · exact h.hand hi
      · cases n with
        | event e => exact absurd trivial hn
        | matching | trade | activated | updating => rfl
  | added _ _ _ _ => exact h.event _ fun i hi => .inr ⟨_, rfl, Option.some.inj hi⟩
  | activated _ _ _ => exact h.event _ fun i hi => .inr ⟨_, rfl, Option.some.inj hi⟩
  | priced _ _ _ | trailed _ _ _ _ =>
    rw [List.append_nil]
    exact ⟨h.trades, h.hand⟩
  | rested _ _ _ _ _ =>
    rw [List.append_nil]
    exact ⟨h.trades, nofun⟩
  | moved hv _ _ _ => exact h.event _ fun i hi => by rw [View.hand_set, hv] at hi; cases hi
  | cancelled hv _ _ => exact h.event _ fun i hi => by rw [View.hand_set, hv] at hi; cases hi
  | executed hv _ _ _ => exact h.event _ fun i hi => .inl ⟨hi, rfl⟩
  | deleted _ =>
    refine h.event _ fun i hi => .inl ⟨?_, rfl⟩
    dsimp only at hi
    split at hi
    · cases hi
    · exact hi
  | @traded _ bid ask p q ht =>
    constructor
    · apply h.trades.append
      intro pre bidId askId price quantity post he
      have hpre : pre = [] := by
        cases pre with
        | nil => rfl
        | cons n pre =>
          have hmem : Note.trade bidId askId price quantity ∈
              [.event (.executedOrder (bid.execute p q)),
                .event (.executedOrder (ask.execute p q))] := by
            rw [(List.cons.inj he).2]
            simp
          simp at hmem
      subst hpre
      cases he
      rw [List.append_nil]
      rcases ht.resting with ⟨hh, _, hty, hp⟩ | ⟨hh, _, hty, hp⟩
      · obtain ⟨o, hn, ho⟩ := h.hand hh
        exact ⟨o, _, _, [], hn, rfl, rfl, rfl, ht.ne, ht.bidSide, ht.askSide, ht.ask_le, ht.le_bid,
          .inl ⟨ho, hty, hp⟩⟩
      · obtain ⟨o, hn, ho⟩ := h.hand hh
        exact ⟨o, _, _, [], hn, rfl, rfl, rfl, ht.ne, ht.bidSide, ht.askSide, ht.ask_le, ht.le_bid,
          .inr ⟨ho, hty, hp⟩⟩
    · intro i hi
      rw [newest_append]
      exact h.hand hi

end Guarded

/-- Every trade of a run, in whatever operation or cascade, is made at the limit price of the
resting order, and neither side is worse off than its price. -/
theorem trades_protected (h : Visited Op.Legal symbolId b) : Protected b.trace := by
  obtain ⟨v, hv⟩ := h.act_induct Guarded.act Guarded.new
  exact hv.trades

theorem trades_protected_mixedOps : ∃ b, (MapOrderBook.new 1).run 20 mixedOps = .ok b ∧
    Protected b.trace := by
  obtain ⟨b, hb, hr⟩ := exists_reachable Op.Legal 1 20 mixedOps (by decide +kernel)
    (by decide +kernel)
  exact ⟨b, hb, trades_protected (.done hr)⟩

end RapidTrader
