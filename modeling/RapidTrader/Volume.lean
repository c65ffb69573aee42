import RapidTrader.Representation

namespace RapidTrader
open Lib
set_option autoImplicit true

/-- What the order that rests under an id has open. -/
def Book.openQuantityOf (b : Book) (i : UInt64) : UInt64 :=
  match b.orders.find? i with
  | some w => w.order.openQuantity
  | none => 0

/-- The volume that the list of a level stands for. The sum wraps as the stored volume does. -/
def Book.actualVolume (b : Book) (l : Level) : UInt64 := (l.orders.map b.openQuantityOf).sum

/-- Every level stores the volume of its list. -/
def Volumed (b : Book) : Prop := ∀ it l, b.level? it = some l → l.volume = b.actualVolume l

theorem openQuantityOf_eq {b : Book} (hw : b.orders.find? i = some w) :
    b.openQuantityOf i = w.order.openQuantity := by
  rw [Book.openQuantityOf, hw]

theorem openQuantityOf_congr {b b' : Book} (h : b'.orders.find? i = b.orders.find? i) :
    b'.openQuantityOf i = b.openQuantityOf i := by
  rw [Book.openQuantityOf, h]
  rfl

theorem actualVolume_congr {b b' : Book} {l : Level}
    (h : ∀ i ∈ l.orders, b'.openQuantityOf i = b.openQuantityOf i) :
    b'.actualVolume l = b.actualVolume l :=
  congrArg List.sum (List.map_congr_left h)

theorem toNat_sum (xs : List UInt64) : xs.sum.toNat = (xs.map UInt64.toNat).sum % 2 ^ 64 := by
  induction xs with
  | nil => rfl
  | cons x xs ih =>
    rw [List.sum_cons, UInt64.toNat_add, ih, List.map_cons, List.sum_cons, Nat.add_mod_mod]

/-- Orders joining a level one after the other raise its volume by what they have open. -/
theorem Level.volume_addOrders (l : Level) (os : List Order) :
    (l.addOrders os).volume = l.volume + (os.map Order.openQuantity).sum := by
  induction os generalizing l with
  | nil => exact (UInt64.add_zero _).symm
  | cons o os ih =>
    have h : (l.addOrders (o :: os)).volume = ((l.addOrder o).addOrders os).volume := rfl
    rw [h, ih, List.map_cons, List.sum_cons, ← UInt64.add_assoc]
    rfl

/-- Re-levelling changes no open quantity. -/
theorem Updated.openQuantityOf (hu : Updated b side b') (i : UInt64) :
    b'.openQuantityOf i = b.openQuantityOf i := by
  have ho := hu.orders i
  cases hw : b.orders.find? i with
  | none =>
    rw [hw] at ho
    rw [Book.openQuantityOf, Book.openQuantityOf, ho, hw]
    rfl
  | some w =>
    rw [hw] at ho
    rw [openQuantityOf_eq ho, openQuantityOf_eq hw]
    dsimp only
    split <;> rfl

/-- It fills every new level from nothing. -/
theorem Releveled.volume (hm : Releveled b t ws b') (hl : b'.level? ⟨t, key⟩ = some l) :
    l.volume = b'.actualVolume l := by
  rw [hm.levels, if_pos rfl] at hl
  split at hl
  · cases hl
  · cases hl
    rw [Level.volume_addOrders, Book.actualVolume, Level.orders_addOrders]
    change 0 + _ = ((([] : List UInt64) ++ _).map _).sum
    rw [UInt64.zero_add, List.nil_append, List.map_map]
    congr 1
    apply List.map_congr_left
    intro o ho
    simp only [Book.stopsAt, List.mem_filter, List.mem_map] at ho
    obtain ⟨⟨w, hw, rfl⟩, _⟩ := ho
    have hid := openQuantityOf_eq (hm.moved w hw)
    exact hid.symm

namespace Volumed

theorem congr {b b' : Book} (h : Volumed b) (ho : b'.orders = b.orders)
    (hl : ∀ it, b'.level? it = b.level? it) : Volumed b' := by
  intro it l hit
  rw [hl] at hit
  rw [h it l hit]
  exact (actualVolume_congr fun i _ => openQuantityOf_congr (by rw [ho])).symm

/-- An order leaves the book and its level, which loses what the order had open. -/
theorem remove {b b' : Book} (h : Volumed b) (hl : Linked b) (hw : b.orders.find? i = some w)
    (hlev : b.level? w.levelIt = some l) (ho : b'.orders = b.orders.erase i)
    (hlev' : ∀ it, b'.level? it =
      if it = w.levelIt then if l'.empty then none else some l' else b.level? it)
    (hlo : l'.orders = l.orders.erase i) (hlv : l'.volume = l.volume - w.order.openQuantity) :
    Volumed b' := by
  have hkeep : ∀ {k}, k ≠ i → b'.openQuantityOf k = b.openQuantityOf k := by
    intro k hk
    apply openQuantityOf_congr
    rw [ho, SortedMap.find?_erase, if_neg hk]
  intro it l₁ hit
  rw [hlev'] at hit
  split at hit
  · split at hit
    · cases hit
    · cases hit
      obtain ⟨l₂, hl₂, hi⟩ := hl.held hw
      rw [hlev] at hl₂
      cases hl₂
      have hsum : b.openQuantityOf i + ((l.orders.erase i).map b.openQuantityOf).sum =
          (l.orders.map b.openQuantityOf).sum := List.sum_map_erase _ hi
      have hrest : b'.actualVolume l' = ((l.orders.erase i).map b.openQuantityOf).sum := by
        rw [Book.actualVolume, hlo]
        congr 1
        apply List.map_congr_left
        exact fun k hk => hkeep fun he => (hl.sound hlev).nodup.not_mem_erase (he ▸ hk)
      have hvol := h _ _ hlev
      rw [Book.actualVolume, ← hsum, openQuantityOf_eq hw] at hvol
      rw [hlv, hrest, hvol]
      grind
  · rename_i hne
    rw [h it l₁ hit]
    refine (actualVolume_congr fun k hk => hkeep ?_).symm
    rintro rfl
    obtain ⟨w', hw', hit'⟩ := hl.owned hit hk
    rw [hw] at hw'
    cases hw'
    exact hne hit'.symm

/-- An order in its place changes what it has open, and its level follows. -/
theorem rewrite {b b' : Book} (h : Volumed b) (hl : Linked b) (hw : b.orders.find? i = some w)
    (hlev : b.level? w.levelIt = some l) (ho : b'.orders = b.orders.insert i { w with order := o })
    (hlev' : ∀ it, b'.level? it = if it = w.levelIt then some l' else b.level? it)
    (hlo : l'.orders = l.orders)
    (hlv : l'.volume = l.volume - (w.order.openQuantity - o.openQuantity)) : Volumed b' := by
  have hkeep : ∀ {k}, k ≠ i → b'.openQuantityOf k = b.openQuantityOf k := by
    intro k hk
    apply openQuantityOf_congr
    rw [ho, SortedMap.find?_insert, if_neg hk]
  have hown : b'.openQuantityOf i = o.openQuantity := by
    apply openQuantityOf_eq (w := { w with order := o })
    rw [ho, SortedMap.find?_insert, if_pos rfl]
  intro it l₁ hit
  rw [hlev'] at hit
  split at hit
  · cases hit
    obtain ⟨l₂, hl₂, hi⟩ := hl.held hw
    rw [hlev] at hl₂
    cases hl₂
    have hsum (f : UInt64 → UInt64) : f i + ((l.orders.erase i).map f).sum =
        (l.orders.map f).sum := List.sum_map_erase f hi
    have hrest : (l.orders.erase i).map b'.openQuantityOf =
        (l.orders.erase i).map b.openQuantityOf := by
      apply List.map_congr_left
      exact fun k hk => hkeep fun he => (hl.sound hlev).nodup.not_mem_erase (he ▸ hk)
    have hvol := h _ _ hlev
    rw [Book.actualVolume, ← hsum, openQuantityOf_eq hw] at hvol
    rw [hlv, Book.actualVolume, hlo, ← hsum, hown, hrest, hvol]
    grind
  · rename_i hne
    rw [h it l₁ hit]
    refine (actualVolume_congr fun k hk => hkeep ?_).symm
    rintro rfl
    obtain ⟨w', hw', hit'⟩ := hl.owned hit hk
    rw [hw] at hw'
    cases hw'
    exact hne hit'.symm

theorem deleted (h : Volumed b.toBook) (hl : Linked b.toBook) (hd : Deleted b i w l n b') :
    Volumed b'.toBook :=
  h.remove hl hd.order hd.held hd.orders (hd.levels (hl.home hd.order))
    (by rw [Level.deleteOrder, hl.id hd.order]) rfl

theorem changed (h : Volumed b.toBook) (hl : Linked b.toBook) (ht : w.order.SameTerms o)
    (ha : amount = w.order.openQuantity - o.openQuantity)
    (hc : Changed b i w l o amount price notes b') : Volumed b'.toBook := by
  have hlev := hc.levels (ht.home?.trans (hl.home hc.order))
  have ho := hc.orders
  by_cases hf : o.isFilled = true
  · have hz : o.openQuantity = 0 := of_decide_eq_true hf
    simp only [hf, ↓reduceIte] at hlev ho
    refine h.remove hl hc.order hc.held ho hlev ?_ ?_
    · rw [Level.deleteOrder, ht.id, hl.id hc.order]
      rfl
    · change l.volume - amount - o.openQuantity = _
      rw [ha, hz, UInt64.sub_zero, UInt64.sub_zero]
  · simp only [hf, Bool.false_eq_true, ↓reduceIte] at hlev ho
    refine h.rewrite hl hc.order hc.held ho hlev rfl ?_
    change l.volume - amount = _
    rw [ha]

theorem inserted (h : Volumed b.toBook) (hl : Linked b.toBook)
    (hn : b.orders.find? o.id = none) (hi : Inserted b it o b') : Volumed b'.toBook := by
  have hkeep : ∀ {it l}, b.level? it = some l → b'.actualVolume l = b.actualVolume l := by
    intro it l hit
    refine actualVolume_congr fun k hk => openQuantityOf_congr ?_
    rw [hi.find?_orders, if_neg]
    rintro rfl
    obtain ⟨w, hw, _⟩ := hl.owned hit hk
    rw [hn] at hw
    cases hw
  have hown : b'.openQuantityOf o.id = o.openQuantity := by
    apply openQuantityOf_eq (w := ⟨o, it⟩)
    rw [hi.find?_orders, if_pos rfl]
  intro it' l hit
  rw [hi.levels] at hit
  split at hit
  · cases hit
    have hjoin (l : Level) (hv : l.volume = b'.actualVolume l) :
        (l.addOrder o).volume = b'.actualVolume (l.addOrder o) := by
      rw [Book.actualVolume, Level.addOrder, List.map_append, List.sum_append, List.map_singleton,
        List.sum_singleton, hown, hv]
      rfl
    apply hjoin
    cases hlev : b.level? it with
    | none => rfl
    | some l => exact (h _ _ hlev).trans (hkeep hlev).symm
  · exact (h _ _ hit).trans (hkeep hit).symm

theorem updated (h : Volumed b.toBook) (hu : Updated b side b') :
    Volumed (b'.remember side).toBook := by
  refine congr ?_ (orders_remember b' side) (level?_remember b' side)
  intro it l hit
  cases hr : b.relevels side with
  | false =>
    rw [hu.skipped hr] at hit ⊢
    exact h it l hit
  | true =>
    obtain ⟨ws, hws, hm⟩ := hu.moved hr
    by_cases ht : it.levels = trailingMap side
    · obtain ⟨t, key⟩ := it
      cases ht
      exact hm.volume hit
    · have hit' := hit
      rw [hm.levels, if_neg ht] at hit'
      exact (h it l hit').trans
        (actualVolume_congr fun i _ => hu.openQuantityOf i).symm

/-- Whatever changes an open quantity changes the volume of the level by as much. -/
theorem step (hi : Inv c) (h : Volumed c.book.toBook) (hs : Step Adm c c') :
    Volumed c'.book.toBook := by
  have hl := hi.linked
  cases hs with
  | work hs =>
    cases hs with
    | priced _ => exact h
    | matching _ => exact h
    | traded _ _ hm =>
      obtain ⟨key, l, i, w, ht⟩ := hl.traded hm
      exact h.changed hl (.execute _ _ _) (by simp only [Order.execute]; grind) ht.changed
    | rested ht _ _ _ =>
      have hn := (hi.inHand rfl).fresh
      obtain ⟨it, _, hin⟩ := insertLimitOrder_inserted ht hn
      exact h.inserted hl hn hin
    | dropped _ => exact h
    | activating _ _ _ _ hd =>
      obtain ⟨w', l, hd⟩ := deleteOrderWith_deleted hd
      have h' := h.deleted hl hd
      exact h'
    | activated => exact h
  | added _ => exact h
  | trailed _ => exact h
  | triggered _ _ => exact h
  | restedStop ht _ =>
    have hn := (hi.inHand rfl).fresh
    obtain ⟨it, _, hin⟩ := insertStopOrder_inserted ht hn
    exact h.inserted hl hn hin
  | restedTrailing ht _ _ =>
    have hn := (hi.inHand rfl).fresh
    obtain ⟨it, _, hin⟩ := insertTrailingStopOrder_inserted ht hn
    exact h.inserted hl hn hin
  | updated hu =>
    obtain ⟨b₁, hb₁, hu'⟩ := updateStopOrders_updated hl _
    rw [hu] at hb₁
    cases hb₁
    exact h.updated hu'
  | executed _ hx =>
    obtain ⟨w, l, hc⟩ := executeResting_changed hx
    exact h.changed hl (.execute _ _ _) (by simp only [Order.execute]; grind) hc
  | cancelled _ hx =>
    obtain ⟨w, l, hc⟩ := cancelResting_changed hx
    exact h.changed hl (.setQuantity _ _) rfl hc
  | deleted _ hd =>
    obtain ⟨w, l, hd⟩ := deleteOrderWith_deleted hd
    exact h.deleted hl hd

end Volumed

theorem Reachable.volumed (h : Reachable Op.Legal symbolId b) : Volumed b.toBook := by
  refine (h.induct (guards_legal (J := fun c => Volumed c.book.toBook)
    fun hi hj hs => hj.step hi hs) ?_).2
  intro it l hit
  obtain ⟨t, key⟩ := it
  cases t <;> cases hit

/-- After every completed operation every level stores the sum of what the orders of its list have
open, modulo `2^64`. -/
theorem volume_eq (h : Reachable Op.Legal symbolId b) (hl : b.level? it = some l) :
    (∀ i ∈ l.orders, b.orders.find? i ≠ none) ∧
      l.volume.toNat = (l.orders.map fun i => (b.openQuantityOf i).toNat).sum % 2 ^ 64 := by
  constructor
  · intro i hi
    obtain ⟨w, hw, _⟩ := h.inv.linked.owned hl hi
    simp [hw]
  · rw [h.volumed it l hl, Book.actualVolume, toNat_sum, List.map_map]
    rfl

/-- Two bids of `2^63` in one level, and one more whose cancellation exceeds what it has open. -/
def wrappingOps : List Op :=
  [.addOrder (.new .limit .bid .gtc 1 90 0 0 9223372036854775808 1),
    .addOrder (.new .limit .bid .gtc 1 90 0 0 9223372036854775808 2),
    .addOrder (.new .limit .bid .gtc 1 90 0 0 5 3), .cancelOrder 3 7]

/-- The stored volume has wrapped. -/
theorem volume_eq_wrappingOps : ∃ b l, (MapOrderBook.new 1).run 20 wrappingOps = .ok b ∧
    b.level? ⟨.bid, 90⟩ = some l ∧ l.volume = 18446744073709551614 ∧
    l.volume.toNat = (l.orders.map fun i => (b.openQuantityOf i).toNat).sum % 2 ^ 64 := by
  obtain ⟨b, hb, hr, hf⟩ := exists_reachable_of_run Op.Legal 1 20 wrappingOps (by decide +kernel)
    (f := fun b => (b.level? ⟨.bid, 90⟩).map Level.volume) (o := 18446744073709551614)
    (by decide +kernel)
  obtain ⟨l, hl, hv⟩ := Option.map_eq_some_iff.1 hf
  exact ⟨b, l, hb, hl, hv, (volume_eq hr hl).2⟩

end RapidTrader
