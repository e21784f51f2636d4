import LoraDb.PlainValues

/-!
# Property Runs

A run stored as one edit against its items applied one by one.

## Main results

* `updateNodeProperties_eq`: one update is its edits, one after the other.
* `writeNodeProperties_eq`: several writes checked and then stored as one leave what they leave
  one after the other.
* `sameOutcome_run`: so does a run, where its later values do not depend on the graph.
-/

open List (any_cons forM_cons forM_eq_forM)

namespace LoraDb

open InMemoryGraph

/-! ### One update is its edits in order -/

namespace InMemoryGraph

variable {g : InMemoryGraph} {id : NodeId}

/-- Set or remove one property of a node. -/
def applyWrite (id : NodeId) (g : InMemoryGraph) (write : String × Option PropertyValue) :
    InMemoryGraph :=
  match write.2 with
  | some value => (g.setNodeProperty id write.1 value).1
  | none => (g.removeNodeProperty id write.1).1

/-- The event of a write that changed something. -/
def writeEvent (id : NodeId) (write : String × Option PropertyValue) : MutationEvent :=
  match write.2 with
  | some value => .setNodeProperty id write.1 value
  | none => .removeNodeProperty id write.1

/-- A removal finds a value wherever it changes the properties. -/
theorem editProperty_remove {properties properties' : PropertyMap} {key : String}
    {old : Option PropertyValue}
    (h : editProperty properties key .remove = some (properties', old)) :
    old.isSome = true := by
  rw [editProperty] at h
  split at h
  next => simp only [Option.some.injEq, Prod.mk.injEq] at h; rw [← h.2]; rfl
  next => cases h

/-- A write of a stored node, through what its edit finds. -/
theorem applyWrite_eq {node : NodeRecord} (hnode : g.nodeAt id = some node)
    (write : String × Option PropertyValue) :
    g.applyWrite id write =
      match editProperty node.properties write.1 (write.2.elim .remove .set) with
      | none => g
      | some (properties, _) =>
        emit { g with nodes := g.nodes.set id { node with properties } } (writeEvent id write) := by
  obtain ⟨key, value⟩ := write
  rw [applyWrite, writeEvent]
  cases value with
  | some value =>
    simp only [setNodeProperty, editNodeProperty, hnode, Option.elim, editProperty]
  | none =>
    simp only [removeNodeProperty, editNodeProperty, hnode, Option.elim]
    cases hedit : editProperty node.properties key .remove with
    | none => rfl
    | some found =>
      obtain ⟨properties, old⟩ := found
      have hold := editProperty_remove hedit
      cases old with
      | none => cases hold
      | some old => rfl

theorem applyWrite_missing (hnode : g.nodeAt id = none) (write : String × Option PropertyValue) :
    g.applyWrite id write = g := by
  obtain ⟨key, value⟩ := write
  rw [applyWrite]
  cases value with
  | some value => simp only [setNodeProperty, editNodeProperty, hnode]
  | none => simp only [removeNodeProperty, editNodeProperty, hnode]

theorem editProperties_unchanged {properties : PropertyMap} :
    ∀ {edits : List (String × Option PropertyValue)},
      (editProperties properties edits).2.any Option.isSome = false →
        (editProperties properties edits).1 = properties
  | [], _ => rfl
  | (key, value) :: edits, h => by
    rw [editProperties] at h ⊢
    split at h
    next => simp at h
    next hedit =>
      exact editProperties_unchanged (by simpa using h)

theorem emitEdits_cons (write : String × Option PropertyValue) (old : Option PropertyValue)
    (edits : List ((String × Option PropertyValue) × Option (Option PropertyValue))) :
    emitEdits id g ((write, some old) :: edits) =
      emitEdits id (g.emit (writeEvent id write)) edits := by
  obtain ⟨key, value⟩ := write
  cases value with
  | none => rw [emitEdits]; rfl
  | some value => rw [emitEdits]; rfl

theorem updateNodeProperties_missing (hnode : g.nodeAt id = none)
    (writes : List (String × Option PropertyValue)) :
    (g.updateNodeProperties id writes).1 = g := by
  simp only [updateNodeProperties, hnode]

/-- An update of several edits is the first, and an update of the others. -/
theorem updateNodeProperties_cons (write : String × Option PropertyValue)
    (writes : List (String × Option PropertyValue)) :
    (g.updateNodeProperties id (write :: writes)).1 =
      ((g.applyWrite id write).updateNodeProperties id writes).1 := by
  cases hnode : g.nodeAt id with
  | none =>
    rw [applyWrite_missing hnode, updateNodeProperties_missing hnode,
      updateNodeProperties_missing hnode]
  | some node =>
    obtain ⟨key, value⟩ := write
    rw [applyWrite_eq hnode]
    cases hedit : editProperty node.properties key (value.elim .remove .set) with
    | none =>
      simp only [updateNodeProperties, hnode, editProperties, hedit, List.zip_cons_cons,
        emitEdits, any_cons, Option.isSome_none, Bool.false_or]
    | some found =>
      obtain ⟨properties, old⟩ := found
      have hlt := lt_of_nodeAt hnode
      have hid : node.id = id := nodeAt_id hnode
      have hstored : nodeAt (emit { g with nodes := g.nodes.set id { node with properties } }
          (writeEvent id (key, value))) id = some { node with properties } := by
        have h := @nodeAt_set g id { node with properties } hlt hid id
        rw [if_pos rfl] at h
        exact h
      simp only [updateNodeProperties, hnode, hstored, editProperties, hedit,
        List.zip_cons_cons, any_cons, Option.isSome_some, Bool.true_or, if_true]
      rw [emitEdits_cons]
      congr 1
      cases hany : (editProperties properties writes).2.any Option.isSome with
      | false =>
        rw [editProperties_unchanged hany]
        rfl
      | true =>
        have hset : ∀ a b : NodeRecord, (g.nodes.set id a).set id b = g.nodes.set id b := by
          intro a b
          simp only [Slots.set, List.set_set]
        simp only [emit, if_true, hset]

/-- One update is its edits, one after the other. -/
theorem updateNodeProperties_eq (writes : List (String × Option PropertyValue)) :
    (g.updateNodeProperties id writes).1 = writes.foldl (applyWrite id) g := by
  induction writes generalizing g with
  | nil =>
    cases hnode : g.nodeAt id with
    | none => rw [updateNodeProperties_missing hnode, List.foldl_nil]
    | some node =>
      simp only [updateNodeProperties, hnode, editProperties, List.any_nil, List.zip_nil_right,
        emitEdits, List.foldl_nil]
      rfl
  | cons write writes ih => rw [updateNodeProperties_cons, ih, List.foldl_cons]

/-- A write changes the properties of its node only. -/
theorem agreeBut_applyWrite (write : String × Option PropertyValue) :
    AgreeBut id g (g.applyWrite id write) := by
  cases hnode : g.nodeAt id with
  | none =>
    rw [applyWrite_missing hnode]
    exact .refl
  | some node =>
    rw [applyWrite_eq hnode]
    split
    · exact .refl
    next properties old _ =>
      have hid : node.id = id := nodeAt_id hnode
      have hat : ∀ j, nodeAt (emit { g with nodes := g.nodes.set id { node with properties } }
          (writeEvent id write)) j =
            if j = id then some { node with properties } else g.nodeAt j :=
        @nodeAt_set g id { node with properties } (lt_of_nodeAt hnode) hid
      refine ⟨rfl, fun j hj => ?_, ?_⟩
      · rw [hat, if_neg hj]
      · rw [hat, if_pos rfl, hnode]
        rfl

end InMemoryGraph

/-! ### Checks ahead of the writes -/

namespace SetContext

variable {ctx : SetContext} {id : NodeId}

theorem exec_bind {α β : Type} (x : ExecM α) (f : α → ExecM β) (st : Executor) :
    (x >>= f) st = match x st with
      | .ok a st => f a st
      | .error e st => .error e st := by
  change EStateM.bind x f st = _
  rw [EStateM.bind]
  cases x st with
  | ok a st => rfl
  | error e st => rfl

theorem check_eq (test : InMemoryGraph → Except ConstraintViolation Unit) (st : Executor) :
    check test st = match test st.storage with
      | .ok () => .ok () st
      | .error violation => .error (.constraintViolation violation) st := by
  rw [check, exec_bind]
  change (match test st.storage with
    | .ok () => pure ()
    | .error violation => throw (.constraintViolation violation) : ExecM Unit) st = _
  cases test st.storage with
  | ok _ => rfl
  | error _ => rfl

/-- What is left to do once one write is checked on the store `g` while the others before it are
made already, on `g'`. -/
def ChecksAs (id : NodeId) (g g' : InMemoryGraph) (checked : EStateM.Result SetError Executor
    (String × Option PropertyValue)) (written : EStateM.Result SetError Executor Unit) :
    Prop :=
  match checked, written with
  | .ok write st, written =>
    st.storage = g ∧ written = .ok () ⟨g'.applyWrite id write, st.pendingExistence⟩
  | .error e st, .error e' _ => st.storage = g ∧ e = e'
  | .error _ _, .ok _ _ => False

/-- A write is checked ahead of the earlier ones as after them. -/
theorem checkEdit_eq (hcatalog : combinesPropertyWrites ctx.catalog = true)
    {g g' : InMemoryGraph} (h : AgreeBut id g g') (entry : String × LoraValue)
    (pending : List EntityTarget) :
    ChecksAs id g g' (ctx.checkEdit id entry ⟨g, pending⟩)
      (ctx.writeProperty (.node id) entry.1 entry.2 ⟨g', pending⟩) := by
  obtain ⟨key, value⟩ := entry
  by_cases hnull : value = .null
  · subst hnull
    simp only [checkEdit, writeProperty, removeEntityProperty]
    cases ctx.deferExistence with
    | true => exact ⟨rfl, rfl⟩
    | false =>
      simp only [Bool.false_eq_true, if_false, exec_bind, check_eq, checkRemoveProperty_congr h key]
      cases checkRemoveProperty ctx.catalog g (.node id) key with
      | ok _ => exact ⟨rfl, rfl⟩
      | error _ => exact ⟨rfl, rfl⟩
  · have hcheck : ctx.checkEdit id (key, value) = (do
        let property ← convert value
        check fun g => checkSetProperty ctx.catalog g (.node id) key property
        pure (key, some property)) := by
      cases value with
      | null => exact absurd rfl hnull
      | _ => rfl
    have hwrite : ctx.writeProperty (.node id) key value = (do
        let property ← convert value
        check fun g => checkSetProperty ctx.catalog g (.node id) key property
        edit (·.setProperty key property (.node id))) := by
      cases value with
      | null => exact absurd rfl hnull
      | _ => rfl
    rw [hcheck, hwrite, convert]
    cases loraValueToProperty value with
    | error e => exact ⟨rfl, rfl⟩
    | ok property =>
      simp only [exec_bind, check_eq, pure, EStateM.pure,
        checkSetProperty_congr hcatalog h key property]
      cases checkSetProperty ctx.catalog g (.node id) key property with
      | ok _ => exact ⟨rfl, rfl⟩
      | error _ => exact ⟨rfl, rfl⟩

/-- As `ChecksAs`, for several writes. -/
def ChecksAllAs (id : NodeId) (g g' : InMemoryGraph)
    (checked : EStateM.Result SetError Executor (List (String × Option PropertyValue)))
    (written : EStateM.Result SetError Executor Unit) : Prop :=
  match checked, written with
  | .ok writes st, written =>
    st.storage = g ∧
      written = .ok () ⟨writes.foldl (InMemoryGraph.applyWrite id) g', st.pendingExistence⟩
  | .error e st, .error e' _ => st.storage = g ∧ e = e'
  | .error _ _, .ok _ _ => False

theorem checkEdits_eq (hcatalog : combinesPropertyWrites ctx.catalog = true) :
    ∀ (edits : List (String × LoraValue)) {g g' : InMemoryGraph} (_ : AgreeBut id g g')
      (pending : List EntityTarget),
      ChecksAllAs id g g' (edits.mapM (ctx.checkEdit id) ⟨g, pending⟩)
        (edits.forM (fun entry => ctx.writeProperty (.node id) entry.1 entry.2) ⟨g', pending⟩)
  | [], g, g', _, pending => ⟨rfl, rfl⟩
  | entry :: edits, g, g', h, pending => by
    rw [List.mapM_cons, exec_bind, forM_eq_forM, forM_cons, exec_bind]
    have hentry := checkEdit_eq hcatalog h entry pending
    cases hchecked : ctx.checkEdit id entry ⟨g, pending⟩ with
    | error e st =>
      rw [hchecked] at hentry
      cases hwritten : ctx.writeProperty (.node id) entry.1 entry.2 ⟨g', pending⟩ with
      | error e' st' =>
        rw [hwritten] at hentry
        exact hentry
      | ok _ st' =>
        rw [hwritten] at hentry
        exact hentry.elim
    | ok write st =>
      rw [hchecked] at hentry
      obtain ⟨hstorage, hwritten⟩ := hentry
      obtain ⟨storage, pending'⟩ := st
      subst hstorage
      rw [hwritten]
      have hrest := checkEdits_eq hcatalog edits
        (h.trans (InMemoryGraph.agreeBut_applyWrite write)) pending'
      simp only [exec_bind]
      rw [forM_eq_forM] at hrest
      cases hmap : edits.mapM (ctx.checkEdit id) ⟨storage, pending'⟩ with
      | error e st =>
        rw [hmap] at hrest
        cases hforM : forM edits (fun entry => ctx.writeProperty (.node id) entry.1 entry.2)
            ⟨g'.applyWrite id write, pending'⟩ with
        | ok _ _ =>
          rw [hforM] at hrest
          exact hrest.elim
        | error _ _ =>
          rw [hforM] at hrest
          exact hrest
      | ok writes st =>
        rw [hmap] at hrest
        exact hrest

/-- Several writes as one beside one write after the other, from `st`: one state, or two
failures of which the combined one changed no record, or the same. -/
def CombinesAs (st : Executor) :
    EStateM.Result SetError Executor Unit → EStateM.Result SetError Executor Unit → Prop
  | .ok _ s', .ok _ s => s' = s
  | .error _ s', .error _ s => s'.storage = st.storage ∨ s'.storage = s.storage
  | .ok _ _, .error _ _ => False
  | .error _ _, .ok _ _ => False

theorem combinesAs_self (st : Executor) (result : EStateM.Result SetError Executor Unit) :
    CombinesAs st result result := by
  cases result with
  | ok _ _ => rfl
  | error _ _ => exact Or.inr rfl

theorem writeNodeProperties_eq (hcatalog : combinesPropertyWrites ctx.catalog = true)
    (edits : List (String × LoraValue)) (st : Executor) :
    CombinesAs st (ctx.writeNodeProperties id edits st)
      (edits.forM (fun entry => ctx.writeProperty (.node id) entry.1 entry.2) st) := by
  obtain ⟨storage, pending⟩ := st
  have hall := @checkEdits_eq ctx id hcatalog edits storage storage .refl pending
  rw [writeNodeProperties, exec_bind]
  revert hall
  cases edits.mapM (ctx.checkEdit id) ⟨storage, pending⟩ with
  | error e st =>
    generalize edits.forM (fun entry => ctx.writeProperty (.node id) entry.1 entry.2)
      ⟨storage, pending⟩ = written
    intro hall
    cases written with
    | ok _ _ => exact hall.elim
    | error _ _ => exact Or.inl hall.1
  | ok writes st =>
    rintro ⟨rfl, hwritten⟩
    rw [hwritten]
    change (⟨(st.storage.updateNodeProperties id writes).1, st.pendingExistence⟩ : Executor) = _
    rw [InMemoryGraph.updateNodeProperties_eq]

end SetContext

/-! ### Outcomes -/

namespace SetContext

variable {ctx : SetContext} {row : Row} {st : Executor}

/-- The items applied one after the other. -/
def each (ctx : SetContext) (row : Row) (items : List ResolvedSetItem) : ExecM Unit :=
  items.forM (ctx.applySetItem false row)

theorem each_append (xs ys : List ResolvedSetItem) :
    ctx.each row (xs ++ ys) = ctx.each row xs >>= fun _ => ctx.each row ys := by
  simp only [each, forM_eq_forM, List.forM_append]

/-- An outcome beside that of the items one after the other: one state when they succeed, and
a failure when they fail. The records are then those the items left, or those that items before
the failing one left. -/
def OutcomeAs (ctx : SetContext) (row : Row) (items : List ResolvedSetItem) (st : Executor) :
    EStateM.Result SetError Executor Unit → EStateM.Result SetError Executor Unit → Prop
  | .ok _ s, .ok _ s' => s' = s
  | .error _ s, .error _ s' => s'.storage = s.storage ∨
    ∃ done, done <+: items ∧ ∃ s'', ctx.each row done st = .ok () s'' ∧ s'.storage = s''.storage
  | .ok _ _, .error _ _ => False
  | .error _ _, .ok _ _ => False

def SameOutcome (ctx : SetContext) (row : Row) (items : List ResolvedSetItem) (st : Executor)
    (result : EStateM.Result SetError Executor Unit) : Prop :=
  ctx.OutcomeAs row items st (ctx.each row items st) result

theorem sameOutcome_self (items : List ResolvedSetItem) :
    ctx.SameOutcome row items st (ctx.each row items st) := by
  rw [SameOutcome]
  cases ctx.each row items st with
  | ok _ s => rfl
  | error _ s => exact Or.inl rfl

variable {items : List ResolvedSetItem}

/-- A failure that changed no record is one before the first item. -/
theorem sameOutcome_error {e e' : SetError}
    {s s' : Executor} (h : ctx.each row items st = .error e s) (hs : s'.storage = st.storage) :
    ctx.SameOutcome row items st (.error e' s') := by
  rw [SameOutcome, h]
  exact Or.inr ⟨[], List.nil_prefix, st, rfl, hs⟩

theorem SameOutcome.seq {xs ys : List ResolvedSetItem} {m m' : ExecM Unit}
    (h : ctx.SameOutcome row xs st (m st))
    (h' : ∀ s, ctx.SameOutcome row ys s (m' s)) :
    ctx.SameOutcome row (xs ++ ys) st ((m >>= fun _ => m') st) := by
  have happend : ∀ zs, ctx.each row (xs ++ zs) st = match ctx.each row xs st with
      | .ok _ s => ctx.each row zs s
      | .error e s => .error e s := by
    intro zs
    rw [each_append, exec_bind]
    cases ctx.each row xs st with
    | ok _ _ => rfl
    | error _ _ => rfl
  rw [SameOutcome] at h ⊢
  rw [happend, exec_bind]
  cases heach : ctx.each row xs st with
  | ok _ s =>
    cases hm : m st with
    | error e s' =>
      rw [heach, hm] at h
      exact h.elim
    | ok _ s' =>
      rw [heach, hm] at h
      have hsame : s' = s := h
      subst hsame
      have hrest := h' s'
      rw [SameOutcome] at hrest
      change ctx.OutcomeAs row (xs ++ ys) st (ctx.each row ys s') (m' s')
      cases hys : ctx.each row ys s' with
      | ok _ t =>
        rw [hys] at hrest
        cases hm' : m' s' with
        | ok _ t' =>
          rw [hm'] at hrest
          exact hrest
        | error e t' =>
          rw [hm'] at hrest
          exact hrest.elim
      | error e t =>
        rw [hys] at hrest
        cases hm' : m' s' with
        | ok _ t' =>
          rw [hm'] at hrest
          exact hrest.elim
        | error e' t' =>
          rw [hm'] at hrest
          rcases hrest with hsame | ⟨done, hprefix, u, hdone, hu⟩
          · exact Or.inl hsame
          · refine Or.inr ⟨xs ++ done, ?_, u, ?_, hu⟩
            · exact (List.prefix_append_right_inj xs).mpr hprefix
            · rw [happend, heach]
              exact hdone
  | error e s =>
    cases hm : m st with
    | ok _ s' =>
      rw [heach, hm] at h
      exact h.elim
    | error e' s' =>
      rw [heach, hm] at h
      rcases h with hsame | ⟨done, hprefix, u, hdone, hu⟩
      · exact Or.inl hsame
      · exact Or.inr ⟨done, hprefix.trans (List.prefix_append xs ys), u, hdone, hu⟩

/-! ### One item -/

/-- `+=` with several entries is the one item that combines writes. -/
theorem combinesAs_mutate (hcatalog : combinesPropertyWrites ctx.catalog = true)
    (target : EntityTarget) (patch : LoraValue) (st : Executor) :
    CombinesAs st (ctx.mutateEntityTarget true target patch st)
      (ctx.mutateEntityTarget false target patch st) := by
  cases patch with
  | map entries =>
    cases target with
    | relationship rel => exact combinesAs_self st _
    | node id =>
      simp only [mutateEntityTarget, Bool.and_true, Bool.and_false, Bool.false_eq_true, if_false]
      split
      · exact writeNodeProperties_eq hcatalog entries st
      · exact combinesAs_self st _
  | _ => exact combinesAs_self st _

theorem evalExprResult_eq (e : ResolvedExpr) (st : Executor) :
    ctx.evalExprResult e row st = match ctx.evalOn st.storage e row with
      | .ok value => .ok value st
      | .error error => .error error st := by
  rw [evalExprResult, exec_bind]
  change ofExcept (ctx.evalOn st.storage e row) st = _
  cases ctx.evalOn st.storage e row with
  | ok _ => rfl
  | error _ => rfl

theorem entityTargetFromValue_eq (var : VarId) (st : Executor) :
    (∃ target, entityTargetFromValue row var st = .ok target st) ∨
      ∃ e, entityTargetFromValue row var st = .error e st := by
  rw [entityTargetFromValue.eq_def]
  cases hvar : row var with
  | none => exact Or.inr ⟨_, rfl⟩
  | some value =>
    cases value with
    | node id => exact Or.inl ⟨_, rfl⟩
    | relationship id => exact Or.inl ⟨_, rfl⟩
    | _ => exact Or.inr ⟨_, rfl⟩

theorem applySetItem_combines (hcatalog : combinesPropertyWrites ctx.catalog = true)
    (item : ResolvedSetItem) (st : Executor) :
    CombinesAs st (ctx.applySetItem true row item st) (ctx.applySetItem false row item st) := by
  cases item with
  | mutateVariable var value =>
    rw [applySetItem, applySetItem, exec_bind, exec_bind]
    rcases @entityTargetFromValue_eq row var st with ⟨target, htarget⟩ | ⟨e, htarget⟩
    · rw [htarget]
      simp only [exec_bind, evalExprResult_eq]
      cases ctx.evalOn st.storage value row with
      | ok patch => exact combinesAs_mutate hcatalog target patch st
      | error e => exact combinesAs_self st _
    · rw [htarget]
      exact combinesAs_self st _
  | setProperty target value => exact combinesAs_self st _
  | setVariable var value => exact combinesAs_self st _
  | setLabels var labels => exact combinesAs_self st _

theorem each_singleton (item : ResolvedSetItem) (st : Executor) :
    ctx.each row [item] st = ctx.applySetItem false row item st := by
  rw [each, forM_eq_forM, forM_cons, exec_bind]
  cases ctx.applySetItem false row item st with
  | ok _ _ => rfl
  | error _ _ => rfl

/-- What combines like some items has their outcome. -/
theorem CombinesAs.outcome {result : EStateM.Result SetError Executor Unit}
    (h : CombinesAs st result (ctx.each row items st)) : ctx.SameOutcome row items st result := by
  rw [SameOutcome]
  cases heach : ctx.each row items st with
  | ok _ s =>
    rw [heach] at h
    cases result with
    | ok _ s' => exact h
    | error _ _ => exact h.elim
  | error e s =>
    rw [heach] at h
    cases result with
    | ok _ s' => exact h.elim
    | error e' s' =>
      rcases h with hstart | hsame
      · exact Or.inr ⟨[], List.nil_prefix, st, rfl, hstart⟩
      · exact Or.inl hsame

/-- Items applied one by one, each combining writes of its own. -/
theorem sameOutcome_items (hcatalog : combinesPropertyWrites ctx.catalog = true) :
    ∀ (items : List ResolvedSetItem) (st : Executor),
      ctx.SameOutcome row items st (items.forM (ctx.applySetItem true row) st)
  | [], st => sameOutcome_self []
  | item :: items, st => by
    rw [forM_eq_forM, forM_cons]
    refine @SameOutcome.seq ctx row st [item] items _ _ ?_ (sameOutcome_items hcatalog items)
    refine CombinesAs.outcome ?_
    rw [each_singleton]
    exact applySetItem_combines hcatalog item st

/-! ### A run -/

/-- An item of a run on a variable bound to a node: its value is written to the node. -/
theorem applySetItem_run {item : ResolvedSetItem} {var : VarId} {id : NodeId}
    (htarget : runTarget item = some var) (hnode : row var = some (.node id)) :
    ∃ key value, item = .setProperty (.apply (.property key) [.variable var]) value ∧
      ∀ st, ctx.applySetItem false row item st =
        match ctx.evalOn st.storage value row with
        | .ok v => ctx.writeProperty (.node id) key v st
        | .error e => .error e st := by
  rw [runTarget.eq_def] at htarget
  split at htarget
  next key var' value =>
    rw [Option.some.injEq] at htarget
    subst htarget
    refine ⟨key, value, rfl, fun st => ?_⟩
    rw [applySetItem, exec_bind, evalExprResult_eq]
    cases ctx.evalOn st.storage value row with
    | error e => rfl
    | ok v =>
      have howner : ctx.evalOn st.storage (.variable var') row = .ok (.node id) := by
        simp only [evalOn, ResolvedExpr.eval, EvalM.error_pure, EvalM.value_pure, hnode,
          Option.getD_some]
      simp only [setPropertyFromExpr, exec_bind, evalExprResult_eq, howner]
  next => cases htarget

/-- A value with one evaluation on every graph. -/
def Settled (ctx : SetContext) (row : Row) (item : ResolvedSetItem) : Prop :=
  ∀ value ∈ item.value, ∀ g g', ctx.evalOn g value row = ctx.evalOn g' value row

/-- The later values of a run evaluated ahead of the writes. -/
theorem evalEdits_eq {var : VarId} {id : NodeId} (hnode : row var = some (.node id)) :
    ∀ (items : List ResolvedSetItem), (∀ item ∈ items, runTarget item = some var) →
      (∀ item ∈ items, ctx.Settled row item) → ∀ st : Executor,
      (∃ edits, ctx.evalEdits row items st = .ok edits st ∧ ∀ s, ctx.each row items s =
        edits.forM (fun entry => ctx.writeProperty (.node id) entry.1 entry.2) s) ∨
      ∃ e, ctx.evalEdits row items st = .error e st ∧
        ∀ s, ∃ e' s', ctx.each row items s = .error e' s'
  | [], _, _, st => Or.inl ⟨[], rfl, fun _ => rfl⟩
  | item :: items, htarget, hsettled, st => by
    rw [List.forall_mem_cons] at htarget hsettled
    obtain ⟨key, value, rfl, happly⟩ := @applySetItem_run ctx row item var id htarget.1 hnode
    have heach : ∀ s, ctx.each row
        (.setProperty (.apply (.property key) [.variable var]) value :: items) s =
        match ctx.evalOn st.storage value row with
        | .ok v => (ctx.writeProperty (.node id) key v >>= fun _ => ctx.each row items) s
        | .error e => .error e s := by
      intro s
      rw [each, forM_eq_forM, forM_cons, exec_bind, happly,
        hsettled.1 value rfl s.storage st.storage]
      cases ctx.evalOn st.storage value row with
      | ok v =>
        simp only [exec_bind]
        rfl
      | error e => rfl
    simp only [evalEdits, exec_bind, evalExprResult_eq, heach]
    cases ctx.evalOn st.storage value row with
    | error e => exact Or.inr ⟨e, rfl, fun s => ⟨e, s, rfl⟩⟩
    | ok v =>
      rcases evalEdits_eq hnode items htarget.2 hsettled.2 st with
        ⟨edits, hedits, hrest⟩ | ⟨e, hedits, hrest⟩
      · refine Or.inl ⟨(key, v) :: edits, by simp only [hedits]; rfl, fun s => ?_⟩
        rw [forM_eq_forM, forM_cons]
        simp only [exec_bind]
        cases ctx.writeProperty (.node id) key v s with
        | ok _ s' => exact hrest s'
        | error _ _ => rfl
      · refine Or.inr ⟨e, by simp only [hedits], fun s => ?_⟩
        simp only
        cases ctx.writeProperty (.node id) key v s with
        | ok _ s' => exact hrest s'
        | error e' s' => exact ⟨e', s', rfl⟩

/-- A run stored as one edit, whose later values read nothing it writes. -/
theorem sameOutcome_run (hcatalog : combinesPropertyWrites ctx.catalog = true) {var : VarId}
    {id : NodeId} (hnode : row var = some (.node id))
    (htarget : ∀ item ∈ items, runTarget item = some var)
    (hsettled : ∀ item ∈ items.tail, ctx.Settled row item) (st : Executor) :
    ctx.SameOutcome row items st (ctx.applyPropertyRun row items id st) := by
  have hwrites : ∀ edits, ctx.evalEdits row items st = .ok edits st → ctx.each row items st =
        edits.forM (fun entry => ctx.writeProperty (.node id) entry.1 entry.2) st →
      ctx.SameOutcome row items st (ctx.applyPropertyRun row items id st) := by
    intro edits hedits heach
    refine CombinesAs.outcome ?_
    rw [applyPropertyRun, exec_bind, hedits, heach]
    exact writeNodeProperties_eq hcatalog edits st
  have hfails : ∀ e, ctx.evalEdits row items st = .error e st →
      (∃ e' s', ctx.each row items st = .error e' s') →
      ctx.SameOutcome row items st (ctx.applyPropertyRun row items id st) := by
    rintro e hedits ⟨e', s', heach⟩
    rw [applyPropertyRun, exec_bind, hedits]
    exact sameOutcome_error heach rfl
  cases items with
  | nil => exact hwrites [] rfl rfl
  | cons item items =>
    rw [List.forall_mem_cons] at htarget
    obtain ⟨key, value, rfl, happly⟩ := @applySetItem_run ctx row item var id htarget.1 hnode
    have heach : ctx.each row
        (.setProperty (.apply (.property key) [.variable var]) value :: items) st =
        match ctx.evalOn st.storage value row with
        | .ok v => (ctx.writeProperty (.node id) key v >>= fun _ => ctx.each row items) st
        | .error e => .error e st := by
      rw [each, forM_eq_forM, forM_cons, exec_bind, happly]
      cases ctx.evalOn st.storage value row with
      | ok v =>
        simp only [exec_bind]
        rfl
      | error e => rfl
    have hevals : ctx.evalEdits row
        (.setProperty (.apply (.property key) [.variable var]) value :: items) st =
        match ctx.evalOn st.storage value row with
        | .ok v => (ctx.evalEdits row items >>= fun edits => pure ((key, v) :: edits)) st
        | .error e => .error e st := by
      rw [evalEdits, exec_bind, evalExprResult_eq]
      cases ctx.evalOn st.storage value row with
      | ok _ => rfl
      | error _ => rfl
    cases hvalue : ctx.evalOn st.storage value row with
    | error e =>
      rw [hvalue] at heach hevals
      exact hfails e hevals ⟨e, st, heach⟩
    | ok v =>
      rw [hvalue] at heach hevals
      simp only [exec_bind] at heach hevals
      rcases evalEdits_eq hnode items htarget.2 hsettled st with
        ⟨edits, hedits, hrest⟩ | ⟨e, hedits, hrest⟩
      · rw [hedits] at hevals
        refine hwrites ((key, v) :: edits) hevals ?_
        rw [heach, forM_eq_forM, forM_cons, exec_bind]
        cases ctx.writeProperty (.node id) key v st with
        | ok _ s' => exact hrest s'
        | error _ _ => rfl
      · rw [hedits] at hevals
        refine hfails e hevals ?_
        rw [heach]
        cases ctx.writeProperty (.node id) key v st with
        | ok _ s' => exact hrest s'
        | error e' s' => exact ⟨e', s', rfl⟩

end SetContext

end LoraDb
