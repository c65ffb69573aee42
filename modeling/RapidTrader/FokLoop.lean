import RapidTrader.FillOrKill

namespace RapidTrader
open Lib
set_option autoImplicit true

namespace Book

/-- The loops of `canMatchOrder` with the keys of the levels they visit. -/
def canMatchVisits (b : Book) (order : Order) : Nat → UInt64 → List UInt64 × Option Bool
  | 0, _ => ([], none)
  | fuel + 1, quantityAvailable =>
    match b.bestOpposite order.side with
    | some (key, level) =>
      if crosses order.side key order.price then
        let quantityNeeded := order.openQuantity - quantityAvailable
        let quantityAvailable := quantityAvailable + min level.volume quantityNeeded
        if order.openQuantity ≤ quantityAvailable then ([key], some true)
        else
          let (keys, result) := canMatchVisits b order fuel quantityAvailable
          (key :: keys, result)
      else ([], some false)
    | none => ([], some false)

theorem canMatchVisits_snd (b : Book) (o : Order) (fuel : Nat) (a : UInt64) :
    (b.canMatchVisits o fuel a).2 = b.canMatchLoop o fuel a := by
  induction fuel generalizing a with
  | zero => rfl
  | succ fuel ih =>
    rw [canMatchVisits, canMatchLoop]
    cases b.bestOpposite o.side with
    | none => rfl
    | some e =>
      dsimp only
      split
      · split
        · rfl
        · exact ih _
      · rfl

/-- The loop ends, and it has visited no level twice. -/
def ScansOnce (b : Book) (o : Order) : Prop :=
  ∃ fuel keys result, b.canMatchVisits o fuel 0 = (keys, some result) ∧ keys.Nodup

/-- While the best level crosses, the loop visits it in its first turn. -/
theorem mem_canMatchVisits {b : Book} (hb : b.bestOpposite o.side = some (key, l))
    (hc : crosses o.side key o.price = true)
    (h : b.canMatchVisits o fuel a = (keys, some result)) : key ∈ keys := by
  cases fuel with
  | zero => cases h
  | succ fuel =>
    rw [canMatchVisits, hb] at h
    dsimp only at h
    rw [if_pos hc] at h
    split at h
    · cases h
      exact List.mem_cons_self
    · obtain ⟨rfl, _⟩ := Prod.mk.inj h
      exact List.mem_cons_self

theorem le_min_iff (a q : UInt64) : q ≤ 0 + min a (q - 0) ↔ q ≤ a := by
  rw [UInt64.zero_add, UInt64.sub_zero, min_uint64]
  split
  · exact Iff.rfl
  · rename_i h
    exact ⟨fun _ => UInt64.le_of_lt (UInt64.not_le.1 h), fun _ => UInt64.le_refl q⟩

/-- The second turn looks at the level of the first turn again. -/
theorem scansOnce_iff (b : Book) (o : Order) : b.ScansOnce o ↔
    (b.crossed o = true → o.openQuantity ≤ b.bestVolume o.side) := by
  unfold crossed bestVolume
  cases hb : b.bestOpposite o.side with
  | none =>
    refine ⟨fun _ h => (nomatch h), fun _ => ⟨1, [], false, ?_, List.nodup_nil⟩⟩
    rw [canMatchVisits, hb]
  | some e =>
    obtain ⟨key, l⟩ := e
    dsimp only
    constructor
    · rintro ⟨fuel, keys, result, h, hnd⟩ hc
      cases fuel with
      | zero => cases h
      | succ fuel =>
        rw [canMatchVisits, hb] at h
        dsimp only at h
        rw [if_pos hc] at h
        split at h
        · exact (le_min_iff _ _).1 ‹_›
        · obtain ⟨rfl, hr⟩ := Prod.mk.inj h
          have hmem := mem_canMatchVisits hb hc (Prod.ext rfl hr)
          exact absurd hmem (List.nodup_cons.1 hnd).1
    · intro h
      cases hc : crosses o.side key o.price with
      | false =>
        refine ⟨1, [], false, ?_, List.nodup_nil⟩
        rw [canMatchVisits, hb]
        dsimp only
        rw [hc, if_neg Bool.false_ne_true]
      | true =>
        refine ⟨1, [key], true, ?_, List.nodup_singleton key⟩
        rw [canMatchVisits, hb]
        dsimp only
        rw [hc, if_pos rfl, if_pos ((le_min_iff _ _).2 (h hc))]

/-- The loop ends unless it counts a volume of zero. -/
theorem canMatchOrder_ends_iff (b : Book) (o : Order) :
    (∃ fuel result, b.canMatchOrder fuel o = some result) ↔
      (b.crossed o = true → b.bestVolume o.side = 0 → o.openQuantity = 0) := by
  constructor
  · rintro ⟨fuel, result, h⟩ hc hv
    by_contra ho
    have hnone : b.canMatchOrder fuel o = none := canMatchLoop_eq_none hc hv ho fuel
    rw [h] at hnone
    cases hnone
  · intro h
    cases hc : b.crossed o with
    | false =>
      refine ⟨1, false, ?_⟩
      rw [canMatchOrder, canMatchLoop_succ, hc]
      rfl
    | true =>
      by_cases hv : b.bestVolume o.side = 0
      · refine ⟨1, true, ?_⟩
        have hle : o.openQuantity ≤ b.bestVolume o.side := by
          rw [h hc hv]
          exact UInt64.zero_le
        rw [canMatchOrder, canMatchLoop_succ, hc, if_pos rfl, if_pos ((le_min_iff _ _).2 hle)]
      · refine ⟨o.openQuantity.toNat + 1, true, ?_⟩
        exact canMatchLoop_of_volume hc hv UInt64.zero_le (by simp)

end Book

/-- A fill-or-kill order whose scan does not end is never dealt with. -/
theorem addOrder_never_returns {b : MapOrderBook} (ht : o.type = .limit) (hk : o.isFok = true)
    (hn : ∀ fuel, b.canMatchOrder fuel o = none) (fuel : Nat) (b' : MapOrderBook) :
    b.addOrder fuel o ≠ .ok b' := by
  intro h
  obtain ⟨b₁, hs, _⟩ := bind_eq_ok.1 h
  unfold MapOrderBook.submitOrder at hs
  rw [ht] at hs
  obtain ⟨s, hm, _⟩ := bind_eq_ok.1 hs
  rw [matchOrder_fok hk, toBook_emit, hn] at hm
  cases hm

/-- The scan for a fill-or-kill order, in any book and so in every one that a run leads to: its loop
visits each level at most once exactly when the best level does not cross or covers the order, and
it ends exactly when that level does not show a volume of zero to an open order. -/
theorem canMatchOrder_scans (b : Book) (o : Order) :
    (∀ fuel, (b.canMatchVisits o fuel 0).2 = b.canMatchOrder fuel o) ∧
    (b.ScansOnce o ↔ (b.crossed o = true → o.openQuantity ≤ b.bestVolume o.side)) ∧
    ((∃ fuel result, b.canMatchOrder fuel o = some result) ↔
      (b.crossed o = true → b.bestVolume o.side = 0 → o.openQuantity = 0)) :=
  ⟨fun fuel => b.canMatchVisits_snd o fuel 0, b.scansOnce_iff o, b.canMatchOrder_ends_iff o⟩

/-- Two asks rest at one price. -/
def twoAsksOps (quantity : UInt64) : List Op :=
  [.addOrder (.new .limit .ask .gtc 1 10 0 0 quantity 1),
    .addOrder (.new .limit .ask .gtc 1 10 0 0 quantity 2)]

/-- A fill-or-kill bid of 5 at that price. -/
def fokBid : Order := .new .limit .bid .fok 1 10 0 0 5 3

/-- With asks of `2^63` the volume of the level is zero, and the bid is never dealt with. With asks
of 2 the level is visited twice. -/
theorem twoAsksOps_not_scanned_once :
    (∃ b : MapOrderBook, Reachable Op.Legal 1 b ∧ Op.Legal b.toBook (.addOrder fokBid) ∧
      fokBid.isFok = true ∧ (∀ fuel, b.canMatchOrder fuel fokBid = none) ∧
      (∀ fuel b', b.apply fuel (.addOrder fokBid) ≠ .ok b') ∧ ¬ b.ScansOnce fokBid) ∧
    ∃ b : MapOrderBook, Reachable Op.Legal 1 b ∧ Op.Legal b.toBook (.addOrder fokBid) ∧
      b.canMatchVisits fokBid 2 0 = ([10, 10], some true) ∧ ¬ b.ScansOnce fokBid := by
  constructor
  · obtain ⟨b, _, hr, hf⟩ := exists_reachable_of_run Op.Legal 1 20 (twoAsksOps 9223372036854775808)
      (by decide +kernel)
      (f := fun b => some (decide (Op.Legal b.toBook (.addOrder fokBid)), b.crossed fokBid,
        b.bestVolume .bid)) (o := (true, true, 0)) (by decide +kernel)
    obtain ⟨hl, hc, hv⟩ : Op.Legal b.toBook (.addOrder fokBid) ∧ b.crossed fokBid = true ∧
        b.bestVolume .bid = 0 := by
      simpa only [Option.some.injEq, Prod.mk.injEq, decide_eq_true_eq] using hf
    have hn (fuel : Nat) : b.canMatchOrder fuel fokBid = none :=
      Book.canMatchLoop_eq_none hc hv (by decide) fuel
    refine ⟨b, hr, hl, rfl, hn, addOrder_never_returns rfl rfl hn, fun h => ?_⟩
    have hle := (b.scansOnce_iff fokBid).1 h hc
    rw [show b.bestVolume fokBid.side = 0 from hv] at hle
    exact absurd hle (by decide)
  · obtain ⟨b, _, hr, hf⟩ := exists_reachable_of_run Op.Legal 1 20 (twoAsksOps 2)
      (by decide +kernel)
      (f := fun b => some (decide (Op.Legal b.toBook (.addOrder fokBid)), b.crossed fokBid,
        b.bestVolume .bid, b.canMatchVisits fokBid 2 0))
      (o := (true, true, 4, [10, 10], some true)) (by decide +kernel)
    obtain ⟨hl, hc, hv, hvis⟩ : Op.Legal b.toBook (.addOrder fokBid) ∧ b.crossed fokBid = true ∧
        b.bestVolume .bid = 4 ∧ b.canMatchVisits fokBid 2 0 = ([10, 10], some true) := by
      simpa only [Option.some.injEq, Prod.mk.injEq, decide_eq_true_eq] using hf
    refine ⟨b, hr, hl, hvis, fun h => ?_⟩
    have hle := (b.scansOnce_iff fokBid).1 h hc
    rw [show b.bestVolume fokBid.side = 4 from hv] at hle
    exact absurd hle (by decide)

end RapidTrader
