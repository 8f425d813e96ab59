import Leibrix.LdpCutLoss
import Leibrix.LdpCutRule

/-!
# Which plans survive cutting

The exchanges that a cut hands out are read once each, and its stages are numbered
in order, so the stages can be put together again. The annotated plans for which
this gives the query back are exactly the cuttable ones.
-/

set_option autoImplicit false

namespace Leibrix.LdpCutCorrect
open SqlAst LdpTypes LdpExchange LdpAnnotate LdpCut LdpStages LdpReassemble LdpCutSound LdpCutLoss
open LdpCutRule List

section Tally

def planReads (p : LogicalPlan) : List Nat := (collectExchangeReads p).map Prod.fst

def stageReads (st : CutState) : List Nat := st.stages.flatMap fun stage => planReads stage.plan

def Tally (st : CutState) (reads : List Nat) : Prop :=
  (stageReads st ++ reads).Perm (List.range st.nextExchangeId)

def Tallies (st : CutState) (qs : List LogicalPlan) (st' : CutState) : Prop :=
  ∀ R, Tally st R → Tally st' (R ++ qs.flatMap planReads)

theorem Tallies.refl (st : CutState) : Tallies st [] st := by
  intro R h
  simpa using h

variable {st st' : CutState} {qs : List LogicalPlan} {q : LogicalPlan}

theorem Tallies.append {st'' : CutState} {qs' : List LogicalPlan} (h : Tallies st qs st')
    (h' : Tallies st' qs' st'') : Tallies st (qs ++ qs') st'' := by
  intro R ht
  simpa using h' _ (h R ht)

theorem planReads_aliased (p q : LogicalPlan) : planReads (aliased p q) = planReads q := by
  unfold aliased
  split <;> rfl

theorem planReads_restoreOutputColumns (p : LogicalPlan) (columns : List Expr) (q : LogicalPlan) :
    planReads (restoreOutputColumns p columns q) = planReads q := by
  obtain keep | ⟨-, _, items, -, -, -, wrap⟩ := restoreOutputColumns_cases p columns
  · rw [keep]
  · rw [wrap]
    rfl

theorem readExchange_tallies (child : AnnotatedPlan) (kind : Exchange) (k : Nat)
    (h : Tallies st [] st') :
    Tallies st [(readExchange child kind k st').1] (readExchange child kind k st').2.2 := by
  intro R ht
  have reads : (stageReads st' ++ R).Perm (range st'.nextExchangeId) := by
    simpa [Tally] using h R ht
  have hread : planReads (readExchange child kind k st').1 = [st'.nextExchangeId] :=
    planReads_aliased child.plan (.exchangeRead _ _)
  rw [Tally, flatMap_singleton, hread, ← append_assoc]
  exact (reads.append_right _).trans (by rw [← range_succ]; exact .refl _)

theorem pushStage_tallies (a : AnnotatedPlan) (pending : List PendingEdge)
    (hq : planReads q = qs.flatMap planReads) (h : Tallies st qs st') :
    Tallies st [] (pushStage a q pending st').2 := by
  intro R ht
  have reads := h R ht
  refine .trans ?_ reads
  simp only [stageReads, pushStage, flatMap_append, flatMap_singleton, hq,
    flatMap_nil, append_nil, append_assoc]
  exact perm_append_comm.append_left _

theorem tallies_through {cols : List Expr} {R : OnPart} {cs ds : List AnnotatedPlan}
    (hds : List.Forall₂ (Augmented cols) cs ds)
    (h : ∀ c d, c ∈ cs → Augmented cols c d → ∀ st q edges st', R d st q edges st' →
      Tallies st [q] st') {pending : List PendingEdge} (through : Through R ds st qs pending st') :
    qs.length = cs.length ∧ Tallies st qs st' := by
  induction hds generalizing st qs pending with
  | nil =>
    cases through
    exact ⟨rfl, .refl _⟩
  | @cons c d cs ds hd _ ih =>
    cases through with
    | cons first rest =>
      obtain ⟨length_eq, tallies⟩ := ih (fun c d hc => h c d (by simp [hc])) rest
      exact ⟨by simp [length_eq], (h c d (by simp) hd _ _ _ _ first).append tallies⟩

variable {cols : List Expr}

theorem planReads_reconstruct {p r : LogicalPlan} (h : SameHead cols p q)
    (hlength : qs.length = p.children.length) (hr : reconstructPlanWithChildren q qs = some r) :
    planReads r = qs.flatMap planReads := by
  cases h with
  | scan =>
    obtain rfl := length_eq_zero_iff.mp hlength
    cases hr
    rfl
  | filter | project | aggregate | sort | limit | window | subqueryScan =>
    obtain ⟨image, rfl⟩ := length_eq_one_iff.mp hlength
    cases hr
    simp [planReads, collectExchangeReads]
  | join | setOp =>
    obtain ⟨left, right, rfl⟩ := length_eq_two.mp hlength
    cases hr
    simp [planReads, collectExchangeReads]

variable (cols) in
def TalliesStage : OnCut := fun b st _ st' =>
  ∀ a, Met cols a b → cuttable true a → Tallies st [] st'

variable (cols) in
def TalliesPart : OnPart := fun b st q _ st' =>
  ∀ a, Met cols a b → cuttable false a → Tallies st [q] st'

theorem tallies_child {stage inner : AnnotatedPlan → AnnotatedPlan} {c d : AnnotatedPlan}
    {edges : List PendingEdge}
    (child : Child (TalliesStage cols) (TalliesPart cols) stage inner d st q edges st')
    (hd : Augmented cols c d) (hcut : cuttable c.exchangeBefore.isSome c)
    (hstage : c.exchangeBefore ≠ none → Met cols c (stage d)) (hinner : Met cols c (inner d)) :
    Tallies st [q] st' := by
  cases child with
  | @exchange kind k st₁ _ _ _ hex htallies hread =>
    rw [hd.exchangeBefore] at hex
    rw [hex] at hcut
    have read := readExchange_tallies d kind k (htallies c (hstage (by simp [hex])) hcut)
    rw [hread] at read
    exact read
  | inner hex hpart =>
    rw [hd.exchangeBefore] at hex
    rw [hex] at hcut
    exact hpart c hinner hcut

theorem planReads_met {a b : AnnotatedPlan} (h : Met cols a b)
    (hlength : qs.length = a.children.length)
    (hq : reconstructPlanWithChildren b.plan qs = some q) : planReads q = qs.flatMap planReads := by
  refine planReads_reconstruct h.augmented.sameHead ?_ hq
  rw [h.faithful.plans, length_map, hlength]

theorem tallies_rule (text : SqlText) : CutRule text (TalliesStage cols) (TalliesPart cols) where
  stage := by
    intro b st st₁ qs q pending through hq a h hcut
    obtain ⟨takes, below⟩ := cuttable_iff.mp hcut
    obtain ⟨length_eq, tallies⟩ := tallies_through h.augmented.children
      (fun c d hc hd st q edges st' child => by
        refine tallies_child child hd (below c hc) (fun hne => ?_) (h.innerChild text hc hd)
        have takes := (takes rfl).imp_right fun t => (t c hc).resolve_left hne
        exact h.exchangedChild text hc hd hne takes) through
    exact pushStage_tallies b pending
      ((planReads_restoreOutputColumns _ _ _).trans (planReads_met h length_eq hq)) tallies
  leaf := by
    intro b st hleaf a h _ R ht
    have none_read : planReads b.plan = [] := by
      rw [(h.leaf (List.isEmpty_iff.mpr hleaf)).2.1, planReads,
        show collectExchangeReads a.plan = [] from h.closed.here, map_nil]
    simpa [none_read] using ht
  node := by
    intro b st st₁ qs q pending through hq a h hcut
    obtain ⟨-, below⟩ := cuttable_iff.mp hcut
    obtain ⟨length_eq, tallies⟩ := tallies_through h.augmented.children
      (fun c d hc hd st q edges st' child =>
        tallies_child child hd (below c hc) (fun _ => h.child hc hd) (h.child hc hd)) through
    intro R ht
    simpa [planReads_met h length_eq hq] using tallies R ht

end Tally

variable {a : AnnotatedPlan}

section Annotated

variable {policy : PlannerPolicy}

variable {exchanges : List (Option Exchange)} {p : LogicalPlan} {metadata : Metadata}

theorem Faithful.applyExchange (h : Faithful a) (e : Option Exchange) :
    Faithful (applyExchange policy a e) := by
  cases e with
  | none => exact h
  | some e =>
    cases h with
    | mk hplans ho hcs => exact .mk hplans ho hcs

variable {P : LogicalPlan → Prop}

theorem Everywhere.applyExchange (h : Everywhere P a) (e : Option Exchange) :
    Everywhere P (applyExchange policy a e) := by
  cases e with
  | none => exact h
  | some e => exact .mk h.here fun c hc => h.child hc

attribute [local simp] applyExchanges

theorem mem_applyExchanges {children : List AnnotatedPlan} {d : AnnotatedPlan}
    (h : d ∈ applyExchanges policy children exchanges) :
    ∃ c ∈ children, ∃ e, d = applyExchange policy c e := by
  induction children generalizing exchanges with
  | nil => simp at h
  | cons c children ih =>
    cases exchanges with
    | nil => simp at h
    | cons e exchanges =>
      rcases mem_cons.mp h with rfl | h
      · exact ⟨c, by simp, e, rfl⟩
      · obtain ⟨c, hc, e, rfl⟩ := ih h
        exact ⟨c, by simp [hc], e, rfl⟩

theorem applyExchanges_plans {children : List AnnotatedPlan}
    (h : exchanges.length = children.length) :
    (applyExchanges policy children exchanges).map (·.plan) = children.map (·.plan) := by
  induction children generalizing exchanges with
  | nil => simp
  | cons c children ih =>
    obtain ⟨e, exchanges, rfl⟩ := exists_cons_of_length_eq_add_one h
    simpa using ih (by simpa using h)

theorem annotateRecursive_plan (h : annotateRecursive policy metadata [] p = .ok a) :
    a.plan = p ∧ a.exchangeBefore = none := by
  obtain ⟨cs, -, hnode⟩ := annotateRecursive_inv h
  obtain ⟨exchanges, -, rfl⟩ := annotateNode_inv hnode
  exact ⟨rfl, rfl⟩

theorem ordered_singleton (h : annotateRecursive policy metadata [] p = .ok a) (hp : ordered p) :
    a.distribution = .singleton policy.coordinator := by
  obtain ⟨cs, hcs, hnode⟩ := annotateRecursive_inv h
  obtain ⟨exchanges, hex, rfl⟩ := annotateNode_inv hnode
  have hlength := nodeExchanges_length hex
  cases p with
  | sort | limit =>
    obtain _ | ⟨-, _ | _⟩ := hcs
    obtain ⟨e, rfl⟩ := length_eq_one_iff.mp hlength
    rfl
  | _ => cases hp

theorem ordered_children {cs : List AnnotatedPlan} (hp : ordered p)
    (hcs : List.Forall₂ (fun p c => annotateRecursive policy metadata [] p = .ok c) p.children cs)
    (hex : nodeExchanges policy [] p cs = .ok exchanges) :
    ∀ d ∈ applyExchanges policy cs exchanges, d.exchangeBefore = none ∨ ordered d.plan = false := by
  intro d hd
  cases p with
  | sort | limit =>
    obtain ⟨c, _, hc, hnil, rfl⟩ := forall₂_cons_left_iff.mp hcs
    obtain rfl := forall₂_nil_left_iff.mp hnil
    obtain ⟨rfl, hnone⟩ := annotateRecursive_plan hc
    cases ho : ordered c.plan with
    | false =>
      obtain ⟨c', hc', e, rfl⟩ := mem_applyExchanges hd
      rw [mem_singleton.mp hc', applyExchange_plan]
      exact .inr ho
    | true =>
      have satisfied : determineExchange c.distribution c.annotation .singleton policy false [] =
          .none := by
        rw [ordered_singleton hc ho]
        rfl
      simp only [nodeExchanges, getLogicalPlanRequirements, requiredExchanges, satisfied] at hex
      cases hex
      rw [mem_singleton.mp hd]
      exact .inl hnone
  | _ => cases hp

theorem readFree_child {c : LogicalPlan} (h : ReadFree p) (hc : c ∈ p.children) : ReadFree c := by
  cases p <;> simp_all [ReadFree, collectExchangeReads, LogicalPlan.children]
  all_goals rcases hc with rfl | rfl <;> simp [h]

theorem everywhere_annotated (inherited : ∀ p, P p → ∀ c ∈ p.children, P c) (hp : P p)
    (h : annotateLogicalPlan p policy metadata = .ok a) : Everywhere P a := by
  unfold annotateLogicalPlan at h
  induction p using LogicalPlan.induction_on_children generalizing a with
  | h p ih =>
    obtain ⟨cs, hcs, hnode⟩ := annotateRecursive_inv h
    obtain ⟨exchanges, -, rfl⟩ := annotateNode_inv hnode
    refine .mk hp fun d hd => ?_
    obtain ⟨c, hc, e, rfl⟩ := mem_applyExchanges hd
    obtain ⟨q, hq, hann⟩ := exists_left_of_forall₂ hcs hc
    exact Everywhere.applyExchange (ih q hq (inherited p hp q hq) hann) e

theorem annotateLogicalPlan_sound (h : annotateLogicalPlan p policy metadata = .ok a)
    (hp : ReadFree p) : a.plan = p ∧ Faithful a ∧ Closed a := by
  unfold annotateLogicalPlan at h
  induction p using LogicalPlan.induction_on_children generalizing a with
  | h p ih =>
    obtain ⟨cs, hcs, hnode⟩ := annotateRecursive_inv h
    obtain ⟨exchanges, hex, rfl⟩ := annotateNode_inv hnode
    have below : ∀ {qs cs}, qs ⊆ p.children →
        Forall₂ (fun p c => annotateRecursive policy metadata [] p = .ok c) qs cs →
        cs.map (·.plan) = qs ∧ ∀ c ∈ cs, Faithful c := by
      intro qs cs hqs h
      induction h with
      | nil => simp
      | @cons q c qs cs hq _ ihs =>
        obtain ⟨hmem, hqs⟩ := cons_subset.mp hqs
        obtain ⟨eq, sound, -⟩ := ih q hmem hq (readFree_child hp hmem)
        obtain ⟨eqs, sounds⟩ := ihs hqs
        exact ⟨by simp [eq, eqs], by simpa [sound] using sounds⟩
    obtain ⟨plans, sound⟩ := below (Subset.refl _) hcs
    refine ⟨rfl, .mk ?_ (fun ho => ordered_children ho hcs hex) fun d hd => ?_,
      everywhere_annotated (fun _ hp _ hc => readFree_child hp hc) hp h⟩
    · rw [applyExchanges_plans (nodeExchanges_length hex), plans]
    · obtain ⟨c, hc, e, rfl⟩ := mem_applyExchanges hd
      exact Faithful.applyExchange (sound c hc) e

end Annotated

section Assembly

theorem find?_of_nodup {α : Type} (key : α → Nat) {l : List α} (h : (l.map key).Nodup) {x : α}
    (hx : x ∈ l) : l.find? (fun y => key y == key x) = some x := by
  induction l with
  | nil => cases hx
  | cons y l ih =>
    obtain ⟨hy, hl⟩ := nodup_cons.mp h
    rcases mem_cons.mp hx with rfl | hx
    · simp
    · have hne : (key y == key x) = false :=
        beq_false_of_ne fun eq => hy (eq ▸ mem_map_of_mem hx)
      rw [find?_cons_of_neg (by simp [hne]), ih hl hx]

def finish (coordinator : WorkerId) (k : Nat) (st : CutState) : LdpPlan :=
  streamRoot (assignStageWorkers ⟨coordinator, st.stages, st.edges, k⟩ st.stageAnnotations)

theorem cutIntoStages_eq_some {text : SqlText} {policy : PlannerPolicy} {plan : LdpPlan} :
    cutIntoStages text a policy = some plan ↔
      ∃ k st, cutRecursive text (treeDepth a) a ⟨[], [], 0, 0, []⟩ = some (k, st) ∧
        finish policy.coordinator k st = plan := by
  simp only [cutIntoStages, finish, Option.bind_eq_bind, Option.bind_eq_some_iff, Option.pure_def,
    Option.some.injEq, Prod.exists]

variable (coordinator : WorkerId) (k : Nat) (st : CutState)

theorem finish_stages : ∃ f : Stage → Stage,
    (∀ s, (f s).stageId = s.stageId ∧ (f s).plan = s.plan ∧
      (f s).targetWorkers = (assignTargetWorkers coordinator st.stageAnnotations s).targetWorkers) ∧
      (finish coordinator k st).stages = st.stages.map f := by
  refine ⟨_, fun s => ?_, map_map⟩
  simp only [Function.comp_apply, assignTargetWorkers, assignStageWorkers]
  by_cases hk : s.stageId = k <;> simp [hk]

theorem assignPartitions_ids (stages : List Stage) (e : ExchangeEdge) :
    (assignPartitions stages e).exchangeId = e.exchangeId ∧
      (assignPartitions stages e).fromStage = e.fromStage := by
  unfold assignPartitions
  split <;> exact ⟨rfl, rfl⟩

theorem finish_edges : ∃ f : ExchangeEdge → ExchangeEdge,
    (∀ e, (f e).exchangeId = e.exchangeId ∧ (f e).fromStage = e.fromStage) ∧
      (finish coordinator k st).edges = st.edges.map f :=
  ⟨_, assignPartitions_ids _, rfl⟩

variable {st}

theorem finish_covers (h : Numbered st []) :
    Covers (LdpPlan.wiring (finish coordinator k st)) st [] := by
  obtain ⟨f, hf, stages_eq⟩ := finish_stages coordinator k st
  obtain ⟨g, hg, edges_eq⟩ := finish_edges coordinator k st
  refine ⟨fun s hs => ?_, fun e he => ?_, by simp⟩
  · have nodup : ((finish coordinator k st).stages.map (·.stageId)).Nodup := by
      rw [stages_eq, map_map, show (·.stageId) ∘ f = (·.stageId) from
        funext fun s => (hf s).1, h.stageIds]
      exact nodup_range
    have found := find?_of_nodup _ nodup (x := f s) (by
      rw [stages_eq]
      exact mem_map_of_mem hs)
    rw [(hf s).1] at found
    simp [LdpPlan.wiring, found, (hf s).2.1]
  · have nodup : ((finish coordinator k st).edges.map (·.exchangeId)).Nodup := by
      rw [edges_eq, map_map, show (·.exchangeId) ∘ g = (·.exchangeId) from
        funext fun e => (hg e).1]
      exact (by simpa using h.edges : Perm _ _).nodup_iff.mpr nodup_range
    have found := find?_of_nodup _ nodup (x := g e) (by
      rw [edges_eq]
      exact mem_map_of_mem he)
    rw [(hg e).1] at found
    simp [LdpPlan.wiring, found, (hg e).2]

theorem finish_length (h : Numbered st []) :
    (finish coordinator k st).stages.length = st.nextStageId := by
  obtain ⟨f, -, stages_eq⟩ := finish_stages coordinator k st
  rw [stages_eq, length_map, ← length_map (f := (·.stageId)), h.stageIds,
    length_range]

theorem finish_readIds : readIds (finish coordinator k st) = stageReads st := by
  obtain ⟨f, hf, stages_eq⟩ := finish_stages coordinator k st
  rw [readIds, stages_eq, flatMap_map]
  simp only [(hf _).2.1]
  rfl

theorem finish_reads_once (numbered : Numbered st []) (tally : Tally st []) :
    ∀ edge ∈ (finish coordinator k st).edges,
      (readIds (finish coordinator k st)).count edge.exchangeId = 1 := by
  intro edge hedge
  obtain ⟨g, hg, edges_eq⟩ := finish_edges coordinator k st
  rw [edges_eq] at hedge
  obtain ⟨e, he, rfl⟩ := mem_map.mp hedge
  have reads : (stageReads st).Perm (range st.nextExchangeId) := by
    simpa [Tally] using tally
  have edges : (st.edges.map (·.exchangeId)).Perm (range st.nextExchangeId) := by
    simpa using numbered.edges
  rw [finish_readIds, reads.count_eq, (hg e).1]
  exact count_eq_one_of_mem nodup_range
    (edges.mem_iff.mp (mem_map_of_mem (f := (·.exchangeId)) he))

theorem cutIntoStages_reassembled (text : SqlText) (policy : PlannerPolicy) (h : Closed a) :
    (cutIntoStages text a policy).bind reassembled =
      stageImage text (treeDepth a) a := by
  have result := cutRecursive_result text (treeDepth a) a h ⟨[], [], 0, 0, []⟩
  cases hcut : cutRecursive text (treeDepth a) a ⟨[], [], 0, 0, []⟩ with
  | none =>
    rw [hcut] at result
    simp [cutIntoStages, hcut, show stageImage text (treeDepth a) a = none from result]
  | some r =>
    obtain ⟨k, st⟩ := r
    rw [hcut] at result
    obtain ⟨p, himage, grows, hk, resolve⟩ := result
    have numbered : Numbered st [] := grows.numbered [] ⟨.refl _, rfl⟩
    rw [himage, cutIntoStages_eq_some.mpr ⟨k, st, hcut, rfl⟩]
    have hlength := finish_length policy.coordinator k numbered
    exact resolve _ (finish_covers _ _ numbered) _ (hlength ▸ hk)

theorem cut_restores (text : SqlText) (policy : PlannerPolicy) (faithful : Faithful a)
    (closed : Closed a) (hcut : cuttable true a) :
    ∃ plan q, cutIntoStages text a policy = some plan ∧ reassembled plan = some q ∧
      Restores (orderColumns a.plan) a.plan q := by
  have met : Met (orderColumns a.plan) a a :=
    ⟨faithful, closed, Subset.refl _, augmented_refl closed⟩
  obtain ⟨q, himage, restores⟩ := stageImage_restores text _ met hcut (le_refl _)
  have reassembled_eq := cutIntoStages_reassembled text policy closed
  rw [himage] at reassembled_eq
  obtain ⟨plan, hplan, hq⟩ := Option.bind_eq_some_iff.mp reassembled_eq
  exact ⟨plan, q, hplan, hq, restores⟩

/-- Cutting an annotated plan gives the query back exactly if no sort at the root of a stage has
an exchange right above a scan, a join or a set operation. -/
theorem cut_preserves_iff (text : SqlText) (policy : PlannerPolicy) (metadata : Metadata)
    (p : LogicalPlan) (a : AnnotatedPlan) (ha : annotateLogicalPlan p policy metadata = .ok a)
    (hp : ReadFree p) : CutPreserves text policy a ↔ cuttable true a := by
  obtain ⟨-, faithful, closed⟩ := annotateLogicalPlan_sound ha hp
  have met : Met (orderColumns a.plan) a a :=
    ⟨faithful, closed, Subset.refl _, augmented_refl closed⟩
  constructor
  · rintro ⟨plan, hplan, ⟨q, hq, restores⟩, -⟩
    have reassembled_eq := cutIntoStages_reassembled text policy closed
    rw [hplan, Option.bind_some, hq] at reassembled_eq
    exact (stageImage_bounded text _ met reassembled_eq.symm).2 (leaves_restores restores)
  · intro hcut
    obtain ⟨plan, q, hplan, hq, restores⟩ := cut_restores text policy faithful closed hcut
    refine ⟨plan, hplan, ⟨q, hq, restores⟩, ?_⟩
    obtain ⟨k, st, hst, rfl⟩ := cutIntoStages_eq_some.mp hplan
    have result := cutRecursive_result text (treeDepth a) a closed ⟨[], [], 0, 0, []⟩
    rw [hst] at result
    obtain ⟨-, -, grows, -, -⟩ := result
    exact finish_reads_once _ _ (grows.numbered [] ⟨.refl _, rfl⟩)
      ((tallies_rule text).cutRecursive hst a met hcut [] (.refl _))

end Assembly

section Cases

def columnA : Expr := .identifier ⟨"a", none⟩

variable (tableName : String)

/-- `SELECT a FROM table`. -/
def selectA : LogicalPlan :=
  .project (.scan tableName none (.other tableName)) [.unnamedExpr columnA]

def orderByA (input : LogicalPlan) : LogicalPlan := .sort input [⟨columnA, {}⟩]

def onTwoWorkers : Metadata := ⟨fun _ => ⟨10, 100, ["w1", "w2"], .exact, none⟩⟩

def annotatedSort (input : LogicalPlan) (rows : UInt64) (children : List AnnotatedPlan) :
    AnnotatedPlan :=
  .mk (orderByA input) ⟨.singleton "w1", rows, 10 * rows, .exact⟩ none none
    [.mk input ⟨.singleton "w1", rows, 10 * rows, .exact⟩ (some (.gather "w1"))
      (some (.epochPartitioned ["w1", "w2"])) children]

def annotatedScan : AnnotatedPlan :=
  .mk (.scan tableName none (.other tableName)) ⟨.epochPartitioned ["w1", "w2"], 10, 100, .exact⟩
    none none []

def annotatedSelect : AnnotatedPlan :=
  .mk (selectA tableName) ⟨.epochPartitioned ["w1", "w2"], 10, 100, .exact⟩ none none
    [annotatedScan tableName]

def identText : SqlText where
  expr
    | .identifier ident => ident.value
    | _ => ""
  item
    | .unnamedExpr (.identifier ident) => ident.value
    | _ => ""

/-- A sort over an exchanged projection is cut well. -/
theorem cut_preserves_iff_select :
    annotateLogicalPlan (orderByA (selectA "t")) (.withCoordinator "w1") onTwoWorkers =
      .ok (annotatedSort (selectA "t") 10 [annotatedScan "t"]) ∧
    CutPreserves identText (.withCoordinator "w1")
      (annotatedSort (selectA "t") 10 [annotatedScan "t"]) :=
  ⟨rfl, (cut_preserves_iff _ _ onTwoWorkers (orderByA (selectA "t")) _ rfl rfl).mpr (by decide)⟩

/-- `SELECT a FROM t UNION ALL SELECT a FROM u`. -/
def unionAll : LogicalPlan := .setOp (selectA "t") (selectA "u") .union .all

/-- Ordering a `UNION ALL` drops its second branch: the stages read only `t`. -/
theorem cut_drops_branch :
    annotateLogicalPlan (orderByA unionAll) (.withCoordinator "w1") onTwoWorkers =
      .ok (annotatedSort unionAll 20 [annotatedSelect "t", annotatedSelect "u"]) ∧
    (cutIntoStages identText (annotatedSort unionAll 20 [annotatedSelect "t", annotatedSelect "u"])
      (.withCoordinator "w1")).bind reassembled =
        some (orderByA (.project (selectA "t") [.unnamedExpr columnA])) ∧
    ¬CutPreserves identText (.withCoordinator "w1")
      (annotatedSort unionAll 20 [annotatedSelect "t", annotatedSelect "u"]) := by
  have cut : (cutIntoStages identText (annotatedSort unionAll 20
      [annotatedSelect "t", annotatedSelect "u"]) (.withCoordinator "w1")).bind reassembled =
        some (orderByA (.project (selectA "t") [.unnamedExpr columnA])) := rfl
  refine ⟨rfl, cut, ?_⟩
  rintro ⟨plan, hplan, ⟨q, hq, restores⟩, -⟩
  rw [hplan, Option.bind_some, hq] at cut
  cases cut
  exact absurd (leaves_restores restores) (by decide)

-- Ordering a scan across an exchange panics.
example : cutIntoStages identText (annotatedSort (.scan "t" none (.other "t")) 10 [])
    (.withCoordinator "w1") = none := rfl

end Cases

end Leibrix.LdpCutCorrect
