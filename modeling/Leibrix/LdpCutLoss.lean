import Leibrix.LdpCutSound

/-!
# What a bad cut loses

Where ordering columns meet an exchanged join or set operation, the projection put
over it takes its place and keeps the first child only; over an exchanged scan there
is no child left to keep. So a cut that goes through has at most the leaves of the
plan, and all of them only where every column found a place.
-/

set_option autoImplicit false

namespace Leibrix.LdpCutLoss
open SqlAst LdpTypes LdpAnnotate LdpCut LdpStages LdpReassemble LdpCutSound List Option

def leaves : LogicalPlan → Nat
  | .scan .. => 1
  | .exchangeRead .. => 1
  | .filter input _ | .project input _ | .aggregate input _ _ _ _ | .sort input _ | .limit input _ _
  | .window input _ _ | .subqueryScan input _ => leaves input
  | .join left right _ _ _ | .setOp left right _ _ => leaves left + leaves right

theorem leaves_pos (p : LogicalPlan) : 0 < leaves p := by
  induction p <;> simp only [leaves] <;> omega

theorem leaves_aliased (p q : LogicalPlan) : leaves (aliased p q) = leaves q := by
  unfold aliased
  split <;> rfl

theorem leaves_restoreOutputColumns (p : LogicalPlan) (columns : List Expr) (q : LogicalPlan) :
    leaves (restoreOutputColumns p columns q) = leaves q := by
  obtain keep | ⟨-, _, items, -, -, -, wrap⟩ := restoreOutputColumns_cases p columns
  · rw [keep]
  · rw [wrap]
    rfl

variable {cols : List Expr} {p q r : LogicalPlan}

theorem leaves_restores (h : Restores cols p q) : leaves q = leaves p := by
  induction h with
  | scan => rfl
  | join _ _ _ _ _ ihl ihr | setOp _ _ _ _ ihl ihr => simp only [leaves, ihl, ihr]
  | filter _ _ ih | project _ _ ih | aggregate _ _ _ _ _ ih | sort _ _ ih | limit _ _ _ ih
  | window _ _ _ ih | subqueryScan _ _ ih | named _ _ _ ih | restored _ _ _ _ _ ih => exact ih

variable {images : List LogicalPlan} {P : AnnotatedPlan → Prop}

theorem leaves_reconstruct (h : SameHead cols p q) (hlength : images.length = p.children.length)
    (hr : reconstructPlanWithChildren q images = some r) : (p.children = [] ∧ leaves r = leaves p) ∨
      (leaves p = (p.children.map leaves).sum ∧ leaves r = (images.map leaves).sum) := by
  cases h with
  | scan =>
    cases hr
    exact .inl ⟨rfl, rfl⟩
  | filter | project | aggregate | sort | limit | window | subqueryScan =>
    obtain ⟨image, rfl⟩ := length_eq_one_iff.mp hlength
    cases hr
    exact .inr ⟨rfl, rfl⟩
  | join | setOp =>
    obtain ⟨left, right, rfl⟩ := length_eq_two.mp hlength
    cases hr
    exact .inr ⟨by simp [leaves, LogicalPlan.children], by simp [leaves]⟩

/-- No more leaves than the node had, and as many only under a condition. -/
def Bounded (good : Prop) (p image : LogicalPlan) : Prop :=
  leaves image ≤ leaves p ∧ (leaves image = leaves p → good)

theorem Bounded.of_lt {good : Prop} {p image : LogicalPlan} (h : leaves image < leaves p) :
    Bounded good p image :=
  ⟨h.le, fun eq => absurd eq h.ne⟩

theorem Bounded.mono {good good' : Prop} {p image : LogicalPlan} (h : Bounded good p image)
    (hg : good → good') : Bounded good' p image :=
  ⟨h.1, fun eq => hg (h.2 eq)⟩

theorem sum_bounded {cs : List AnnotatedPlan}
    (h : List.Forall₂ (fun c image => Bounded (P c) c.plan image) cs images) :
    (images.map leaves).sum ≤ ((cs.map (·.plan)).map leaves).sum ∧
      ((images.map leaves).sum = ((cs.map (·.plan)).map leaves).sum → ∀ c ∈ cs, P c) := by
  induction h with
  | nil => simp
  | @cons c image cs images hc _ ih =>
    obtain ⟨le, eq⟩ := ih
    simp only [map_cons, sum_cons, forall_mem_cons]
    have hle := hc.1
    refine ⟨by omega, fun h => ⟨hc.2 (by omega), eq (by omega)⟩⟩

theorem reconstruct_bounded {a b : AnnotatedPlan} (h : Met cols a b)
    (hi : List.Forall₂ (fun c image => Bounded (P c) c.plan image) a.children images)
    (hr : reconstructPlanWithChildren b.plan images = some r) :
    Bounded (∀ c ∈ a.children, P c) a.plan r := by
  have hlength : images.length = a.plan.children.length := by
    rw [h.faithful.plans, length_map, hi.length_eq]
  obtain ⟨hleaf, eq⟩ | ⟨hp, hr⟩ := leaves_reconstruct h.augmented.sameHead hlength hr
  · refine ⟨eq.le, fun _ c hc => ?_⟩
    rw [h.faithful.plans, map_eq_nil_iff] at hleaf
    simp [hleaf] at hc
  · rw [h.faithful.plans] at hp
    rw [Bounded, hp, hr]
    exact sum_bounded hi

theorem allImages_bounded {f : AnnotatedPlan → Option LogicalPlan} {cs ds : List AnnotatedPlan}
    (hds : List.Forall₂ (Augmented cols) cs ds) (hi : allImages f ds = some images)
    (h : ∀ c d image, c ∈ cs → Augmented cols c d → f d = some image →
      Bounded (P c) c.plan image) :
    List.Forall₂ (fun c image => Bounded (P c) c.plan image) cs images := by
  induction hds generalizing images with
  | nil =>
    cases hi
    exact .nil
  | @cons c d cs ds hd _ ih =>
    simp only [allImages, bind_eq_bind, bind_eq_some_iff, Option.pure_def,
      Option.some.injEq] at hi
    obtain ⟨image, himage, images, himages, rfl⟩ := hi
    exact .cons (h c d image (by simp) hd himage)
      (ih himages fun c d image hc => h c d image (by simp [hc]))

variable (text : SqlText)

theorem cutChildImage_nil (stage fragment : AnnotatedPlan → Option LogicalPlan)
    (child : AnnotatedPlan) :
    cutChildImage text stage fragment [] child = extractChildImage stage fragment child := by
  obtain ⟨p, ann, ex, pre, cs⟩ := child
  cases ex with
  | none => rfl
  | some kind =>
    simp only [cutChildImage, extractChildImage, AnnotatedPlan.plan, AnnotatedPlan.withPlan,
      addColumnsToPlan_nil]
    rfl

theorem addColumnsToPlan_wraps (h : takesColumns p = false) {columns : List Expr}
    (hc : columns ≠ []) : ∃ items, addColumnsToPlan text columns p = .project p items := by
  unfold addColumnsToPlan
  rw [if_neg (by simpa using hc)]
  cases p <;> first | exact ⟨_, rfl⟩ | cases h

theorem first_lt (h : SameHead cols p q) (ht : takesColumns p = false)
    (hi : List.Forall₂ (fun c image => leaves image ≤ leaves c) p.children images) {i : LogicalPlan}
    (hfirst : images[0]? = some i) : leaves i < leaves p := by
  cases h with
  | scan =>
    cases hi
    cases hfirst
  | join | setOp =>
    obtain _ | ⟨h1, _ | ⟨h2, _⟩⟩ := hi
    cases hfirst
    have := leaves_pos
    grind [leaves]
  | _ => cases ht

theorem extractChildImage_bounded {stage fragment : AnnotatedPlan → Option LogicalPlan}
    (hstage : ∀ {a b r}, Met cols a b → stage b = some r → Bounded (cuttable true a) a.plan r)
    (hfragment : ∀ {a b r}, Met cols a b → fragment b = some r →
      Bounded (cuttable false a) a.plan r)
    {c d : AnnotatedPlan} (h : Met cols c d) (hr : extractChildImage stage fragment d = some r) :
    Bounded (cuttable c.exchangeBefore.isSome c) c.plan r := by
  cases hex : d.exchangeBefore with
  | none =>
    simp only [extractChildImage, hex] at hr
    rw [← h.augmented.exchangeBefore, hex]
    exact hfragment h hr
  | some kind =>
    simp only [extractChildImage, hex, map_eq_some_iff] at hr
    obtain ⟨image, himage, rfl⟩ := hr
    rw [Bounded, leaves_aliased, ← h.augmented.exchangeBefore, hex]
    exact hstage h himage

mutual

theorem stageImage_bounded : ∀ (depth : Nat) {a b : AnnotatedPlan} {r : LogicalPlan},
    Met cols a b → stageImage text depth b = some r → Bounded (cuttable true a) a.plan r
  | 0, _, _, _, _, hr => by cases hr
  | depth + 1, a, b, r, h, hr => by
    simp only [stageImage, bind_eq_bind, bind_eq_some_iff, Option.pure_def,
      Option.some.injEq] at hr
    obtain ⟨images, himages, image, himage, rfl⟩ := hr
    -- a child that keeps its leaves is cuttable and has a place for the columns
    have bounded := allImages_bounded h.augmented.children himages
      (P := fun c => cuttable c.exchangeBefore.isSome c ∧
        (sortOrderByColumns a.plan = [] ∨ c.exchangeBefore = none ∨ takesColumns c.plan)) (by
      intro c d image hc hd himage
      cases hex : c.exchangeBefore with
      | none =>
        rw [← hd.exchangeBefore] at hex
        simp only [cutChildImage, hex] at himage
        exact (fragmentImage_bounded depth (h.innerChild text hc hd) himage).mono fun good =>
          ⟨good, .inr (.inl rfl)⟩
      | some kind =>
        have hne : c.exchangeBefore ≠ none := by simp [hex]
        rw [← hd.exchangeBefore] at hex
        simp only [cutChildImage, hex, map_eq_some_iff] at himage
        obtain ⟨image, himage, rfl⟩ := himage
        rw [Bounded, leaves_aliased]
        by_cases takes : sortOrderByColumns a.plan = [] ∨ takesColumns c.plan
        · exact (stageImage_bounded depth (h.exchangedChild text hc hd hne takes) himage).mono
            fun good => ⟨good, takes.imp_right .inr⟩
        · obtain ⟨hcols, ht⟩ := not_or.mp takes
          rw [h.sortColumns_eq] at himage
          exact Bounded.of_lt
            (wrappedImage_lt depth (h.child hc hd) (by simpa using ht) hcols himage))
    rw [Bounded, leaves_restoreOutputColumns]
    refine (reconstruct_bounded h bounded himage).mono fun good => cuttable_iff.mpr ⟨?_, ?_⟩
    · intro _
      by_cases hcols : sortOrderByColumns a.plan = []
      · exact .inl hcols
      · exact .inr fun c hc => (good c hc).2.resolve_left hcols
    · exact fun c hc => (good c hc).1

theorem wrappedImage_lt : ∀ (depth : Nat) {c d : AnnotatedPlan} {columns : List Expr}
    {r : LogicalPlan}, Met cols c d → takesColumns c.plan = false → columns ≠ [] →
      stageImage text depth (d.withPlan (addColumnsToPlan text columns d.plan)) = some r →
        leaves r < leaves c.plan
  | 0, _, _, _, _, _, _, _, hr => by cases hr
  | depth + 1, c, .mk plan ann ex pre ds, columns, r, h, ht, hc, hr => by
    obtain ⟨items, hitems⟩ := addColumnsToPlan_wraps text
      (h.augmented.sameHead.takesColumns.trans ht) hc
    simp only [AnnotatedPlan.plan] at hitems
    simp only [AnnotatedPlan.plan, AnnotatedPlan.withPlan, hitems, stageImage,
      AnnotatedPlan.children, sortOrderByColumns, restoreOutputColumns, isEmpty_nil, if_true,
      reconstructPlanWithChildren, bind_eq_bind, bind_eq_some_iff, Option.pure_def,
      Option.some.injEq, funext (cutChildImage_nil text _ _)] at hr
    obtain ⟨images, himages, _, ⟨image, himage, rfl⟩, rfl⟩ := hr
    have bounded := allImages_bounded h.augmented.children himages (P := fun _ => True)
      fun c d image hc hd himage => (extractChildImage_bounded (stageImage_bounded depth)
        (fragmentImage_bounded depth) (h.child hc hd) himage).mono fun _ => trivial
    refine first_lt (i := image) h.augmented.sameHead ht ?_ himage
    rw [h.faithful.plans, forall₂_map_left_iff]
    exact bounded.imp fun _ _ h => h.1

theorem fragmentImage_bounded : ∀ (depth : Nat) {a b : AnnotatedPlan} {r : LogicalPlan},
    Met cols a b → fragmentImage text depth b = some r → Bounded (cuttable false a) a.plan r
  | 0, _, _, _, _, hr => by cases hr
  | depth + 1, a, b, r, h, hr => by
    unfold fragmentImage at hr
    split at hr
    · rename_i hleaf
      cases hr
      obtain ⟨hchildren, -, restores⟩ := h.leaf hleaf
      exact ⟨(leaves_restores restores).le, fun _ => cuttable_iff.mpr (by simp [hchildren])⟩
    · simp only [bind_eq_bind, bind_eq_some_iff] at hr
      obtain ⟨images, himages, hr⟩ := hr
      have bounded := allImages_bounded h.augmented.children himages
        fun c d image hc hd himage => extractChildImage_bounded (stageImage_bounded depth)
          (fragmentImage_bounded depth) (h.child hc hd) himage
      exact (reconstruct_bounded h bounded hr).mono fun good => cuttable_iff.mpr ⟨by simp, good⟩

end

end Leibrix.LdpCutLoss
