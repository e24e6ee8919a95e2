import StreamTopology.Proofs.Composite.Resolution
import StreamTopology.Proofs.Spl.Configuration
import StreamTopology.Proofs.Spl.HostPools

/-!
# Emission

The table of host pools grows while operators are emitted, and the main composite, which declares
the pools, is emitted last. The text of an operator that was emitted before was made with a smaller
table. That this makes no difference is what is shown here: all texts of an application read as if
they had been made with the table of all its pools.

## Main definitions

* `Invocation.Reads`, `Application.Reads`: the text of an operator with a host pool, and that of an
  application with a table of pools.
* `Registers`: what an action enters into the table, and how what it gives reads.

## Main results

* `Invocation.emit_reads`: the text of an operator.
* `Invocation.emit_ends`: an operator without a text enters nothing.
* `Application.emit_reads`: the text of an application.
-/

namespace StreamTopology

variable {α β : Type} {op : Operator} {ops : List Operator} {ps ps' qs : HostPools} {text : String}
  {ctx : Invocation.Context}

/-! ### Operators -/

namespace Invocation

/-- The text of an operator on a host pool: its annotations and heading, then its clauses, of which
the last says where it is colocated and names the pool. -/
def Reads (ctx : Context) (op : Operator) (pool : Option String) (text : String) : Prop :=
  ∃ annotations window params output config, Annotation.all op = .ok annotations ∧
    windowText op = .ok window ∧ parameterText ctx.config ctx.values op = .ok params ∧
    assignmentText op = .ok output ∧
    ConfigClause op (op.placement.colocateKey.map fun key =>
      if ctx.isScoped key then channelColocation key else plainColocation key) pool config ∧
    text = annotations ++ heading op ++ "  \x7b\n" ++ window ++ params ++ output ++ config ++
      "  \x7d\n"

/-- **The text of an operator.** Its pool is looked up, or entered, when all other parts of the text
are there. -/
theorem emit_reads (h : Yields (emit ctx op) ps text ps') :
    Reads ctx op (poolOf op ps).1 text ∧ ps' = ps.register op := by
  rw [emit] at h
  simp only [yields_bind, yields_liftM, yields_get, yields_set, yields_pure] at h
  obtain ⟨annotations, _, ⟨hannotations, rfl⟩, window, _, ⟨hwindow, rfl⟩, params, _,
    ⟨hparams, rfl⟩, output, _, ⟨houtput, rfl⟩, _, _, ⟨rfl, rfl⟩, _, _, rfl, rfl, rfl⟩ := h
  exact ⟨⟨annotations, window, params, output, _, hannotations, hwindow, hparams, houtput,
    configClause_configurationText, rfl⟩, rfl⟩

/-- **An operator without a text leaves the table as it is.** -/
theorem emit_ends : Ends (fun _ _ => True) (fun _ t => t = ps) (emit ctx op) ps := by
  refine ends_liftM_bind (fun annotations _ => ?_) fun _ _ => rfl
  refine ends_liftM_bind (fun window _ => ?_) fun _ _ => rfl
  refine ends_liftM_bind (fun params _ => ?_) fun _ _ => rfl
  refine ends_liftM_bind (fun output _ => ends_get_bind ?_) fun _ _ => rfl
  exact ends_bind (P := fun _ _ => True) (ends_set trivial) fun _ _ _ => ends_pure trivial

/-- The action enters the pools of some operators, and what it gives reads in the same way with
every table that begins with the one it leaves. -/
def Registers (ops : List Operator) (reads : HostPools → α → Prop) (action : EmitM α) : Prop :=
  ∀ ps a ps', Yields action ps a ps' → ps' = ops.foldl HostPools.register ps ∧
    ∀ qs : HostPools, ps'.pools <+: qs.pools → reads qs a

theorem registers_emit : Registers [op]
    (fun qs text => ∃ pool, qs.Names op pool ∧ Reads ctx op pool text) (emit ctx op) := by
  intro ps text ps' h
  obtain ⟨hreads, rfl⟩ := emit_reads h
  exact ⟨rfl, fun qs hqs => ⟨_, HostPools.names_register hqs, hreads⟩⟩

/-- Actions one after the other: an earlier one has left a table with which all later ones begin. -/
theorem registers_mapM {xs : List α} {k : α → List Operator} {reads : α → HostPools → β → Prop}
    {f : α → EmitM β} (h : ∀ x ∈ xs, Registers (k x) (reads x) (f x)) :
    Registers (xs.flatMap k) (fun qs => List.Forall₂ (fun x => reads x qs) xs) (xs.mapM f) := by
  induction xs with
  | nil =>
    intro ps ys ps' hrun
    obtain ⟨rfl, rfl⟩ := yields_mapM_nil.mp hrun
    exact ⟨rfl, fun _ _ => .nil⟩
  | cons x xs ih =>
    intro ps ys ps' hrun
    obtain ⟨y, t, ys', hfirst, hrest, rfl⟩ := yields_mapM_cons.mp hrun
    obtain ⟨rfl, hreads⟩ := h x List.mem_cons_self ps y t hfirst
    obtain ⟨rfl, hreads'⟩ := ih (fun z hz => h z (List.mem_cons_of_mem x hz)) _ ys' ps' hrest
    refine ⟨?_, fun qs hqs => .cons (hreads qs ?_) (hreads' qs hqs)⟩
    · rw [List.flatMap_cons, List.foldl_append]
    · exact HostPools.prefix_foldl_register.trans hqs

end Invocation

/-! ### Composites -/

namespace Application

open Invocation

variable {g : Graph} {c main : Composite} {cs inner : List Composite}

/-- The operators that the members of composites invoke, in the order of emission. -/
def invoked (g : Graph) (cs : List Composite) : List Operator :=
  cs.flatMap fun c => c.members.flatMap fun m => (m.operator? g).toList

/-- The text of a member with a table of host pools: that of its operator on the pool that it
names. -/
def MemberReads (g : Graph) (ctx : Context) (pools : HostPools) (m : Member) (text : String) :
    Prop :=
  ∃ op pool line, m.operator? g = some op ∧ pools.Names op pool ∧
    Invocation.Reads ctx op pool line ∧ text = line ++ "\n"

/-- The text of a composite with a table of host pools. The main one declares all of them, and any
other one none. -/
def CompositeReads (g : Graph) (ctx : Context) (pools : HostPools) (c : Composite) (text : String) :
    Prop :=
  ∃ declarations members config, declarationText c = .ok declarations ∧
    List.Forall₂ (MemberReads g ctx pools) c.members members ∧
    (c.isMain = true → MainConfig pools.pools g.config.checkpoint config) ∧
    (c.isMain = false → config = "") ∧
    text = headerText c ++ declarations ++ "graph\n" ++ String.join members ++ config ++ "\x7d\n"

/-- The text of an application with a table of host pools. -/
def Reads (g : Graph) (ctx : Context) (pools : HostPools) (cs : List Composite) (text : String) :
    Prop :=
  ∃ texts, List.Forall₂ (CompositeReads g ctx pools) cs texts ∧
    text = ((nonEmpty? g.splNamespace).map fun ns => "namespace " ++ ns ++ ";\n").getD ""
      ++ String.join texts

theorem memberOperator_eq_ok {m : Member} (h : memberOperator g m = .ok op) :
    m.operator? g = some op := by
  cases m with
  | node x =>
    rw [memberOperator] at h
    rcases hx : g.get? x with _ | op'
    · rw [hx] at h
      cases h
    · rw [hx] at h
      exact hx.trans (congrArg some (Except.ok.inj h))
  | invocation op' k => exact congrArg some (Except.ok.inj h)

theorem registers_emitMember (m : Member) : Registers (m.operator? g).toList
    (fun qs => MemberReads g ctx qs m) (emitMember g ctx m) := by
  intro ps text ps' hrun
  simp only [emitMember, yields_bind, yields_liftM, yields_pure] at hrun
  obtain ⟨op, _, ⟨hop, rfl⟩, line, t, hemit, rfl, rfl⟩ := hrun
  obtain ⟨hps, hreads⟩ := registers_emit _ line _ hemit
  have hmember := memberOperator_eq_ok hop
  rw [hmember]
  refine ⟨hps, fun qs hqs => ?_⟩
  obtain ⟨pool, hpool, hline⟩ := hreads qs hqs
  exact ⟨op, pool, line, hmember, hpool, hline, rfl⟩

theorem registers_members : Registers (c.members.flatMap fun m => (m.operator? g).toList)
    (fun qs => List.Forall₂ (MemberReads g ctx qs) c.members)
    (c.members.mapM (emitMember g ctx)) :=
  registers_mapM fun m _ => registers_emitMember m

/-- The pools that a composite declares are those of the table that its members leave. -/
theorem emitComposite_reads (hrun : Yields (emitComposite g ctx c) ps text ps') :
    ps' = (c.members.flatMap fun m => (m.operator? g).toList).foldl HostPools.register ps ∧
      CompositeReads g ctx ps' c text ∧
      (c.isMain = false → ∀ qs : HostPools, ps'.pools <+: qs.pools →
        CompositeReads g ctx qs c text) := by
  simp only [emitComposite, yields_bind, yields_liftM, yields_get, yields_pure] at hrun
  obtain ⟨declarations, _, ⟨hdeclarations, rfl⟩, members, _, hmembers, _, _, ⟨rfl, rfl⟩, rfl,
    rfl⟩ := hrun
  obtain ⟨hps, hreads⟩ := registers_members _ members _ hmembers
  refine ⟨hps, ⟨declarations, members, _, hdeclarations, hreads _ List.prefix_rfl, fun hmain => ?_,
    fun hmain => ?_, rfl⟩, fun hmain qs hqs =>
    ⟨declarations, members, _, hdeclarations, hreads qs hqs, fun h => ?_, fun _ => ?_, rfl⟩⟩
  · rw [if_pos hmain]
    exact mainConfig_configurationText _ _
  · rw [hmain, if_neg Bool.false_ne_true]
  · rw [hmain] at h
    cases h
  · rw [hmain, if_neg Bool.false_ne_true]

/-- **The text of an application** whose last composite is the only one that declares pools reads
with the table of the pools of all its operators. -/
theorem emit_reads (hinner : ∀ c ∈ inner, c.isMain = false)
    (hrun : Yields (emit g ctx (inner ++ [main])) ps text ps') :
    ps' = (invoked g (inner ++ [main])).foldl HostPools.register ps ∧
      Reads g ctx ps' (inner ++ [main]) text := by
  simp only [emit, List.mapM_append, List.mapM_cons, List.mapM_nil, bind_assoc, pure_bind,
    yields_bind, yields_pure] at hrun
  obtain ⟨texts, t, htexts, last, _, hlast, rfl, rfl⟩ := hrun
  have hregisters : ∀ c ∈ inner, Registers (c.members.flatMap fun m => (m.operator? g).toList)
      (fun qs => CompositeReads g ctx qs c) (emitComposite g ctx c) := fun c hc ps text ps' hc' =>
    have ⟨hps, _, hreads⟩ := emitComposite_reads hc'
    ⟨hps, hreads (hinner c hc)⟩
  obtain ⟨ht, hreads⟩ := registers_mapM hregisters ps texts t htexts
  obtain ⟨hps, hlast, _⟩ := emitComposite_reads hlast
  have hgrown : t.pools <+: ps'.pools := by
    rw [hps]
    exact HostPools.prefix_foldl_register
  refine ⟨?_, texts ++ [last], List.rel_append (hreads _ hgrown) (.cons hlast .nil), rfl⟩
  rw [hps, ht, ← List.foldl_append, invoked, List.flatMap_append, List.flatMap_singleton]

end Application

end StreamTopology
