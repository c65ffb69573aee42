import RapidTrader.Linked

namespace RapidTrader
open Lib
set_option autoImplicit true

theorem queue_of_level? {b : Book} (h : b.level? it = some l) : b.queue it = l.orders := by
  rw [Book.queue, h]
  rfl

theorem queue_of_none {b : Book} (h : b.level? it = none) : b.queue it = [] := by
  rw [Book.queue, h]
  rfl

theorem Linked.of_mem_queue {b : Book} (h : Linked b) (hi : i ∈ b.queue it) :
    ∃ w, b.orders.find? i = some w ∧ w.levelIt = it := by
  cases hl : b.level? it with
  | none =>
    rw [queue_of_none hl] at hi
    cases hi
  | some l =>
    rw [queue_of_level? hl] at hi
    exact h.owned hl hi

theorem Linked.not_mem_queue {b : Book} (h : Linked b) (hn : b.orders.find? i = none) :
    i ∉ b.queue it := by
  intro hi
  obtain ⟨w, hw, _⟩ := h.of_mem_queue hi
  rw [hn] at hw
  cases hw

/-- An order is in one queue, and there only once. -/
theorem Linked.count_queue {b : Book} (h : Linked b) (hw : b.orders.find? i = some w)
    (it : LevelIt) : (b.queue it).count i = if it = w.levelIt then 1 else 0 := by
  split
  · rename_i hit
    obtain ⟨l, hl, hi⟩ := h.held hw
    rw [hit, queue_of_level? hl]
    exact List.count_eq_one_of_mem (h.sound hl).nodup hi
  · rename_i hit
    apply List.count_eq_zero_of_not_mem
    intro hi
    obtain ⟨w', hw', hit'⟩ := h.of_mem_queue hi
    rw [hw] at hw'
    cases hw'
    exact hit hit'.symm

/-- An order leaves the queue it is in. -/
theorem Linked.queue_remove {b b' : Book} (h : Linked b) (hw : b.orders.find? i = some w)
    (hl : b.level? w.levelIt = some l)
    (hlev : ∀ it, b'.level? it =
      if it = w.levelIt then if l'.empty then none else some l' else b.level? it)
    (hlo : l'.orders = l.orders.erase i) (it : LevelIt) :
    b'.queue it = (b.queue it).filter (fun k => k ≠ i) := by
  by_cases hit : it = w.levelIt
  · have hq : l'.orders = (b.queue it).filter (fun k => k ≠ i) := by
      rw [hit, queue_of_level? hl, hlo, (h.sound hl).nodup.erase_eq_filter]
      apply List.filter_congr
      intro k _
      rw [Bool.eq_iff_iff, bne_iff_ne, decide_eq_true_iff]
    rw [← hq]
    have hlev' := hlev it
    rw [if_pos hit] at hlev'
    cases he : l'.empty with
    | true =>
      rw [he, if_pos rfl] at hlev'
      rw [queue_of_none hlev']
      exact (List.isEmpty_iff.1 he).symm
    | false =>
      rw [he, if_neg Bool.false_ne_true] at hlev'
      exact queue_of_level? hlev'
  · have hq : b'.queue it = b.queue it := by rw [Book.queue, hlev, if_neg hit, Book.queue]
    rw [hq]
    symm
    apply List.filter_eq_self.2
    intro k hk
    obtain ⟨w', hw', hwit⟩ := h.of_mem_queue hk
    apply decide_eq_true
    intro he
    rw [he, hw] at hw'
    cases hw'
    exact hit hwit.symm

/-- An order written back stays where it is in its queue. -/
theorem queue_rewrite {b b' : Book} (hl : b.level? it₀ = some l)
    (hlev : ∀ it, b'.level? it = if it = it₀ then some l' else b.level? it)
    (hlo : l'.orders = l.orders) (it : LevelIt) : b'.queue it = b.queue it := by
  rw [Book.queue, hlev]
  split
  · rename_i hit
    rw [hit, queue_of_level? hl, ← hlo]
    rfl
  · rfl

theorem Deleted.queue {b b' : MapOrderBook} (h : Linked b.toBook) (hd : Deleted b i w l n b')
    (it : LevelIt) : b'.queue it = (b.queue it).filter (fun k => k ≠ i) :=
  h.queue_remove hd.order hd.held (hd.levels (h.home hd.order))
    (by rw [Level.deleteOrder, h.id hd.order]) it

/-- An order that changes stays where it is in its queue, or leaves it when it is filled. -/
theorem Changed.queue {b b' : MapOrderBook} (h : Linked b.toBook) (ht : w.order.SameTerms o)
    (hc : Changed b i w l o amount price notes b') (it : LevelIt) :
    b'.queue it = if o.isFilled then (b.queue it).filter (fun k => k ≠ i) else b.queue it := by
  have hlev := hc.levels (ht.home?.trans (h.home hc.order))
  by_cases hf : o.isFilled = true
  · simp only [hf, ↓reduceIte] at hlev ⊢
    refine h.queue_remove hc.order hc.held hlev ?_ it
    rw [Level.deleteOrder, ht.id, h.id hc.order]
    rfl
  · simp only [hf, Bool.false_eq_true, ↓reduceIte] at hlev ⊢
    exact queue_rewrite hc.held hlev rfl it

/-- An order that is inserted joins the end of its queue. -/
theorem Inserted.queue {b b' : MapOrderBook} (hi : Inserted b it₀ o b') (it : LevelIt) :
    b'.queue it = if it = it₀ then b.queue it ++ [o.id] else b.queue it := by
  rw [Book.queue, hi.levels]
  split
  · rename_i hit
    rw [Option.map_some, Option.getD_some, Level.addOrder, hit]
    cases hl : b.level? it₀ with
    | none =>
      rw [queue_of_none hl]
      rfl
    | some l =>
      rw [queue_of_level? hl]
      rfl
  · rfl

end RapidTrader
