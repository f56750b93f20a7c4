import Endros.Space.Map

/-!
# Several owners

`Own` divides what is in use into two parts.  With `union` and `Apart` a part can be
divided further: the tables of an address space, its pages, and all the rest.

`Owns` is the division among many owners.  Each of them sees the others as the rest
(`Owns.own`), and what it does to its own part keeps the division (`Own.owns`).
-/

namespace Space

open Lib Paging

variable {ω : Type} {A : Allocator ω}

namespace Footprint

def union (F G : Footprint) : Footprint := ⟨F.pages ∪ G.pages, F.refs ∪ G.refs⟩

/-- Nothing at all. -/
def none : Footprint := ⟨∅, ∅⟩

/-- The two have nothing in common. -/
structure Apart (F G : Footprint) : Prop where
  pages : ∀ p ∈ F.pages, p ∉ G.pages
  refs : ∀ a ∈ F.refs, ∀ a' ∈ G.refs, a.1 ≠ a'.1

section Order

variable {F F' G G' H : Footprint}

theorem Le.refl (F : Footprint) : F.Le F := ⟨subset_rfl, subset_rfl⟩

theorem Le.trans (h : F.Le G) (h' : G.Le H) : F.Le H :=
  ⟨h.pages.trans h'.pages, h.refs.trans h'.refs⟩

theorem le_union_left : F.Le (F.union G) := ⟨Set.subset_union_left, Set.subset_union_left⟩

theorem le_union_right : G.Le (F.union G) := ⟨Set.subset_union_right, Set.subset_union_right⟩

theorem union_le (h : F.Le H) (h' : G.Le H) : (F.union G).Le H :=
  ⟨Set.union_subset h.pages h'.pages, Set.union_subset h.refs h'.refs⟩

theorem union_mono (h : F.Le F') (h' : G.Le G') : (F.union G).Le (F'.union G') :=
  union_le (h.trans le_union_left) (h'.trans le_union_right)

theorem le_addPage (F : Footprint) (p : Page) : F.Le (F.addPage p) := ⟨fun _ => .inr, subset_rfl⟩

theorem none_le : none.Le F := ⟨Set.empty_subset _, Set.empty_subset _⟩

theorem Apart.symm (h : F.Apart G) : G.Apart F :=
  ⟨fun p hp hp' => h.pages p hp' hp, fun a ha a' ha' he => h.refs a' ha' a ha he.symm⟩

theorem Apart.mono (h : F'.Apart G') (hF : F.Le F') (hG : G.Le G') : F.Apart G :=
  ⟨fun p hp hp' => h.pages p (hF.pages hp) (hG.pages hp'),
    fun a ha a' ha' => h.refs a (hF.refs ha) a' (hG.refs ha')⟩

theorem apart_none : F.Apart none := ⟨fun _ _ h => h, fun _ _ _ h => h.elim⟩

theorem apart_union : F.Apart (G.union H) ↔ F.Apart G ∧ F.Apart H := by
  constructor
  · intro h
    exact ⟨h.mono (.refl F) le_union_left, h.mono (.refl F) le_union_right⟩
  · rintro ⟨hG, hH⟩
    refine ⟨fun p hp hp' => ?_, fun a ha a' ha' => ?_⟩
    · exact hp'.elim (hG.pages p hp) (hH.pages p hp)
    · exact ha'.elim (hG.refs a ha a') (hH.refs a ha a')

theorem union_none : F.union none = F := by
  rw [union, none, Set.union_empty, Set.union_empty]

theorem union_addPage (p : Page) : (F.addPage p).union G = (F.union G).addPage p := by
  rw [addPage, union, union, addPage, Set.insert_union]

theorem union_addRef (b n : Nat) : (F.addRef b n).union G = (F.union G).addRef b n := by
  rw [addRef, union, union, addRef, Set.insert_union]

theorem addPage_union (p : Page) : F.union (G.addPage p) = (F.union G).addPage p := by
  rw [addPage, union, union, addPage, Set.union_insert]

theorem addRef_union (b n : Nat) : F.union (G.addRef b n) = (F.union G).addRef b n := by
  rw [addRef, union, union, addRef, Set.union_insert]

end Order

end Footprint

/-! ## Parts of a division -/

section Parts

variable {V : Lawful A} {w : ω} {s s' : Memory ω} {F F' G R R' : Footprint} {p q : Page}

/-- What is there beside the footprint stays. -/
theorem Takes.union {w' : ω} (h : Takes A w F w' F') (G : Footprint) :
    Takes A w (F.union G) w' (F'.union G) := by
  induction h with
  | refl => exact .refl
  | dmalloc _ hd ih =>
      rw [Footprint.union_addPage]
      exact ih.dmalloc hd
  | kalloc _ hn hk ih =>
      rw [Footprint.union_addRef]
      exact ih.kalloc hn hk

theorem Gives.le {w' : ω} (h : Gives A w F w' F') : F'.Le F := by
  induction h with
  | refl => exact .refl F
  | dmafree _ _ ih => exact ⟨Set.sdiff_subset.trans ih.pages, ih.refs⟩
  | kfree _ _ ih => exact ⟨ih.pages, Set.sdiff_subset.trans ih.refs⟩

theorem union_sdiff_of_notMem {α : Type} {X Y : Set α} {a : α} (ha : a ∉ Y) :
    (X \ {a}) ∪ Y = (X ∪ Y) \ {a} := by
  rw [Set.union_sdiff_distrib, Set.sdiff_singleton_eq_self ha]

/-- What is there beside the footprint is not given. -/
theorem Gives.union {w' : ω} (h : Gives A w F w' F') (hG : F.Apart G) :
    Gives A w (F.union G) w' (F'.union G) := by
  induction h with
  | refl => exact .refl
  | @dmafree w₁ F₁ m p h hp ih =>
      have hnot : p ∉ G.pages := hG.pages p (h.le.pages hp)
      have hdrop : (F₁.dropPage p).union G = (F₁.union G).dropPage p :=
        congrArg (Footprint.mk · _) (union_sdiff_of_notMem hnot)
      rw [hdrop]
      exact ih.dmafree (.inl hp)
  | @kfree w₁ F₁ b n h hb ih =>
      have hnot : (b, n) ∉ G.refs := fun hin => hG.refs _ (h.le.refs hb) _ hin rfl
      have hdrop : (F₁.dropRef b n).union G = (F₁.union G).dropRef b n :=
        congrArg (Footprint.mk _) (union_sdiff_of_notMem hnot)
      rw [hdrop]
      exact ih.kfree (.inl hb)

/-- A region more is given back last. -/
theorem Gives.kfree_last {w' : ω} {b n : Nat} (h : Gives A w F w' .none) (hb : ∀ a ∈ F.refs, a.1 ≠ b) :
    Gives A w (F.addRef b n) (A.kfree w' b n) .none := by
  have hapart : F.Apart (Footprint.none.addRef b n) := by
    refine ⟨fun _ _ hp => hp, ?_⟩
    rintro a ha a' (rfl | ha')
    · exact hb a ha
    · exact ha'.elim
  have hF : F.union (Footprint.none.addRef b n) = F.addRef b n := by
    rw [Footprint.addRef_union, Footprint.union_none]
  have hdrop : (Footprint.none.union (Footprint.none.addRef b n)).dropRef b n = .none := by
    rw [Footprint.addRef_union, Footprint.union_none]
    exact congrArg (Footprint.mk ∅) (Set.insert_sdiff_self_of_notMem (Set.notMem_empty _))
  have hgives := (h.union hapart).kfree (.inr (.inl rfl))
  rw [hF, hdrop] at hgives
  exact hgives

theorem Own.apart_parts (h : Own V w F R) : F.Apart R := ⟨h.pages, h.refs⟩

theorem Own.of (hv : V.Valid w (F.union R).pages (F.union R).refs) (h : F.Apart R) : Own V w F R :=
  ⟨hv, h.pages, h.refs⟩

theorem Own.mono (h : Own V w F' R') (hF : F.Le F') (hR : R.Le R') : Own V w F R :=
  have hle := Footprint.union_mono hF hR
  .of (V.mono h.valid hle.pages hle.refs) (h.apart_parts.mono hF hR)

/-- A part goes to the rest. -/
theorem Own.give_part (h : Own V w (F.union G) R) (hFG : F.Apart G) : Own V w F (G.union R) := by
  refine .of ?_ (Footprint.apart_union.mpr ⟨hFG, h.apart_parts.mono Footprint.le_union_left (.refl R)⟩)
  have hv := h.valid
  rw [Footprint.union, Set.union_assoc, Set.union_assoc] at hv
  exact hv

/-- A part of the rest is taken back. -/
theorem Own.take_part (h : Own V w F (G.union R)) (hGR : G.Apart R) : Own V w (F.union G) R := by
  have hFR := (Footprint.apart_union.mp h.apart_parts).2
  refine .of ?_ (Footprint.apart_union.mpr ⟨hFR.symm, hGR.symm⟩).symm
  have hv := h.valid
  rw [Footprint.union, ← Set.union_assoc, ← Set.union_assoc] at hv
  exact hv

/-- Everything is part of the rest. -/
theorem Own.rest (h : Own V w F R) : Own V w .none (F.union R) :=
  Own.give_part (h.mono (Footprint.union_le Footprint.none_le (.refl F)) (.refl R))
    Footprint.apart_none.symm

/-- A kernel page belongs to one page. -/
theorem Lawful.page_eq {D : Set Page} {K : Set (Nat × Nat)} (V : Lawful A) (hv : V.Valid w D K)
    (hp : p ∈ D) (hq : q ∈ D) (he : p.vpn = q.vpn) : p = q := by
  refine V.inj hv hp hq ?_
  rw [← (V.page hv hp).2.2, ← (V.page hv hq).2.2, he]

theorem Same.mono (h : Same s s' F') (hF : F.Le F') : Same s s' F :=
  ⟨fun p hp => h.mem p (hF.pages hp), fun a ha => h.refs a (hF.refs ha),
    fun a ha => h.leaves a (hF.refs ha)⟩

theorem Same.union (hF : Same s s' F) (hG : Same s s' G) : Same s s' (F.union G) :=
  ⟨fun p hp => hp.elim (hF.mem p) (hG.mem p), fun a ha => ha.elim (hF.refs a) (hG.refs a),
    fun a ha => ha.elim (hF.leaves a) (hG.leaves a)⟩

end Parts

/-! ## Many owners -/

/-- What the owners other than `i` have. -/
def others (F : Nat → Footprint) (i : Nat) : Footprint :=
  ⟨{p | ∃ j, j ≠ i ∧ p ∈ (F j).pages}, {a | ∃ j, j ≠ i ∧ a ∈ (F j).refs}⟩

/-- What the owners have is in use, and no two of them have something in common. -/
structure Owns (V : Lawful A) (w : ω) (F : Nat → Footprint) : Prop where
  valid : V.Valid w {p | ∃ i, p ∈ (F i).pages} {a | ∃ i, a ∈ (F i).refs}
  apart : ∀ i j, i ≠ j → (F i).Apart (F j)

section Owners

variable {V : Lawful A} {w w' : ω} {F : Nat → Footprint} {G : Footprint} {i j : Nat}

theorem le_others (h : j ≠ i) : (F j).Le (others F i) :=
  ⟨fun _ hp => ⟨j, h, hp⟩, fun _ ha => ⟨j, h, ha⟩⟩

theorem Owns.own (h : Owns V w F) (i : Nat) : Own V w (F i) (others F i) := by
  refine ⟨V.mono h.valid ?_ ?_, ?_, ?_⟩
  · rintro p (hp | ⟨j, -, hp⟩)
    · exact ⟨i, hp⟩
    · exact ⟨j, hp⟩
  · rintro a (ha | ⟨j, -, ha⟩)
    · exact ⟨i, ha⟩
    · exact ⟨j, ha⟩
  · rintro p hp ⟨j, hj, hp'⟩
    exact (h.apart i j hj.symm).pages p hp hp'
  · rintro a ha a' ⟨j, hj, ha'⟩
    exact (h.apart i j hj.symm).refs a ha a' ha'

/-- One owner has another part now. -/
theorem Own.owns (ho : Own V w' G (others F i)) (h : Owns V w F) :
    Owns V w' (Function.update F i G) := by
  have hself : Function.update F i G i = G := Function.update_self ..
  have hother : ∀ {j}, j ≠ i → Function.update F i G j = F j := fun hj => Function.update_of_ne hj ..
  constructor
  · refine V.mono ho.valid ?_ ?_
    · rintro p ⟨j, hp⟩
      by_cases hj : j = i
      · subst hj
        rw [hself] at hp
        exact .inl hp
      · rw [hother hj] at hp
        exact .inr ⟨j, hj, hp⟩
    · rintro a ⟨j, ha⟩
      by_cases hj : j = i
      · subst hj
        rw [hself] at ha
        exact .inl ha
      · rw [hother hj] at ha
        exact .inr ⟨j, hj, ha⟩
  · intro j k hjk
    by_cases hj : j = i
    · subst hj
      rw [hself, hother hjk.symm]
      exact ho.apart_parts.mono (.refl G) (le_others hjk.symm)
    · rw [hother hj]
      by_cases hk : k = i
      · subst hk
        rw [hself]
        exact (ho.apart_parts.mono (.refl G) (le_others hj)).symm
      · rw [hother hk]
        exact h.apart j k hjk

end Owners

end Space
