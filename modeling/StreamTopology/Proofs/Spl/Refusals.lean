import StreamTopology.Proofs.Endings
import StreamTopology.Proofs.Graph.Arena
import StreamTopology.Spl.Application

/-!
# Texts that cannot be written

The text of an application is put together from values and structures of the topology. Where it
cannot be, a value has no counterpart or an annotation lacks what it needs: the topology is at
fault. The one other failure that comes up in the text of a composite is a member that is not in the
graph.

## Main results

* `SubmissionValues.ofParameters_refuses`
* `Invocation.emit_refuses`: the text of an operator.
* `Application.emit_refuses`: the text of an application whose members are in the graph.
-/

namespace StreamTopology

/-! ### Literals -/

namespace Literal

variable {value : Json} {type : MetaType}

theorem number_refuses : OnlyRefuses (number value type) := by
  refine OnlyRefuses.map ?_ _
  unfold numberText
  dsimp only
  repeat' split
  all_goals simp [Error.IsRefusal]

theorem typed_refuses : OnlyRefuses (typed type value) := by
  unfold typed
  split
  · split <;> simp [Error.IsRefusal]
  · exact onlyRefuses_ok _
  · exact onlyRefuses_ok _
  · exact number_refuses

mutual

theorem untyped_refuses (value : Json) : OnlyRefuses (untyped value) := by
  cases value with
  | array items => exact (untypedItems_refuses items).bind fun texts => onlyRefuses_pure _
  | number n => cases n <;> exact onlyRefuses_ok _
  | string s => exact onlyRefuses_ok _
  | bool b => exact onlyRefuses_ok _
  | null => exact onlyRefuses_error.mpr trivial
  | object members => exact onlyRefuses_error.mpr trivial

theorem untypedItems_refuses (items : List Json) : OnlyRefuses (untypedItems items) := by
  cases items with
  | nil => exact onlyRefuses_ok []
  | cons v vs =>
    exact (untyped_refuses v).bind fun text =>
      (untypedItems_refuses vs).bind fun texts => onlyRefuses_pure _

end

theorem parameter_refuses (p : Parameter) : OnlyRefuses (parameter p) := by
  cases p with
  | literal value => exact untyped_refuses value
  | typed type value => exact typed_refuses
  | _ => exact onlyRefuses_ok _

end Literal

/-! ### Submission parameters -/

namespace Submission

variable {p : SubmissionParameter}

theorem metaType_refuses : OnlyRefuses (metaType p) := by
  unfold metaType
  split
  · split
    · exact onlyRefuses_ok _
    · exact onlyRefuses_error.mpr trivial
  · exact onlyRefuses_error.mpr trivial
  · dsimp only
    split
    · exact onlyRefuses_ok _
    · exact onlyRefuses_error.mpr trivial

theorem lookupArguments_refuses {type : MetaType} : OnlyRefuses (lookupArguments p type) := by
  unfold lookupArguments
  split
  · exact onlyRefuses_ok _
  · refine OnlyRefuses.bind ?_ fun text => onlyRefuses_pure _
    unfold defaultArgument
    split
    · exact Literal.number_refuses.map _
    · exact onlyRefuses_ok _

theorem mainDefinition_refuses : OnlyRefuses (mainDefinition p) :=
  metaType_refuses.bind fun _ => lookupArguments_refuses.bind fun _ => onlyRefuses_pure _

theorem innerDefinition_refuses : OnlyRefuses (innerDefinition p) := metaType_refuses.map _

end Submission

theorem SubmissionValues.ofParameters_refuses (ps : Parameters) :
    OnlyRefuses (SubmissionValues.ofParameters ps) := by
  refine (onlyRefuses_mapM fun entry _ => ?_).bind fun all => onlyRefuses_pure _
  unfold SubmissionValues.expectSubmission
  split
  · exact onlyRefuses_ok _
  · exact onlyRefuses_error.mpr trivial

/-! ### Annotations -/

namespace Annotation

variable {op : Operator}

theorem widthText_refuses : OnlyRefuses (widthText op) := by
  unfold widthText
  split
  · exact onlyRefuses_ok _
  · exact Literal.parameter_refuses _
  · exact onlyRefuses_error.mpr trivial

theorem partitionText_refuses : OnlyRefuses (partitionText op) := by
  unfold partitionText
  repeat' split
  all_goals simp [Error.IsRefusal]

theorem parallel_refuses : OnlyRefuses (parallel op) := by
  unfold parallel
  split
  · exact widthText_refuses.bind fun _ => partitionText_refuses.bind fun _ => onlyRefuses_pure _
  · exact onlyRefuses_ok _

theorem all_refuses (op : Operator) : OnlyRefuses (all op) :=
  parallel_refuses.bind fun _ => onlyRefuses_pure _

end Annotation

/-! ### Operators -/

namespace Invocation

variable {op : Operator}

theorem policyArgument_refuses {policy : WindowPolicy} {config : Option Json}
    {unit : Option TimeUnit} : OnlyRefuses (policyArgument op policy config unit) := by
  unfold policyArgument
  extract_lets amount
  have hamount : OnlyRefuses amount := by
    unfold amount
    split <;> simp [Error.IsRefusal]
  split
  · exact hamount.map _
  · split
    · exact onlyRefuses_error.mpr trivial
    · exact hamount.map _
  · exact onlyRefuses_ok _
  · exact onlyRefuses_error.mpr trivial
  · exact onlyRefuses_error.mpr trivial

theorem windowText_refuses : OnlyRefuses (windowText op) := by
  refine (onlyRefuses_mapM fun port _ => ?_).bind fun lines => onlyRefuses_pure _
  unfold windowLine?
  split
  · exact onlyRefuses_ok _
  · split
    · exact onlyRefuses_ok _
    · refine OnlyRefuses.bind ?_ fun evicted => OnlyRefuses.bind ?_ fun fired => onlyRefuses_pure _
      · unfold eviction
        split
        · exact onlyRefuses_error.mpr trivial
        · exact policyArgument_refuses
      · unfold trigger
        split
        · exact onlyRefuses_ok _
        · exact onlyRefuses_ok _
        · exact onlyRefuses_error.mpr trivial
        · exact policyArgument_refuses.map _

theorem parameterText_refuses {config : GraphConfig} {values : SubmissionValues} :
    OnlyRefuses (parameterText config values op) := by
  have hown : OnlyRefuses ((op.parameters.entries.filter fun e => !isVmArgs e).mapM
      parameterLine) :=
    onlyRefuses_mapM fun entry _ => (Literal.parameter_refuses entry.2).map _
  have hvmArgs : OnlyRefuses (vmArgLines config op) := by
    unfold vmArgLines
    split
    · exact onlyRefuses_ok _
    · exact (Literal.untyped_refuses _).map _
  refine OnlyRefuses.bind ?_ fun lines => onlyRefuses_pure _
  exact hown.bind fun own => hvmArgs.bind fun vmArgs => onlyRefuses_pure _

theorem assignmentText_refuses : OnlyRefuses (assignmentText op) := by
  refine (onlyRefuses_mapM fun port _ => ?_).bind fun blocks => onlyRefuses_pure _
  refine (onlyRefuses_mapM fun entry _ => ?_).bind fun lines => onlyRefuses_pure _
  exact (Literal.parameter_refuses entry.2).map _

/-- A computation without state is part of an operation on host pools. -/
theorem settles_liftM {α : Type} {x : Except Error α} (h : OnlyRefuses x) (pools : HostPools) :
    Settles (fun _ => True) (liftM x : EmitM α) pools :=
  ends_liftM (fun _ _ => trivial) fun e he => ⟨h e he, trivial⟩

/-- **Why an operator has no text.** -/
theorem emit_refuses (ctx : Context) (op : Operator) (pools : HostPools) :
    Settles (fun _ => True) (emit ctx op) pools := by
  have hannotations := Annotation.all_refuses op
  refine ends_bind (settles_liftM hannotations pools) fun _ t _ => ?_
  refine ends_bind (settles_liftM windowText_refuses t) fun _ t _ => ?_
  refine ends_bind (settles_liftM parameterText_refuses t) fun _ t _ => ?_
  refine ends_bind (settles_liftM assignmentText_refuses t) fun _ t _ => ends_get_bind ?_
  exact ends_bind (P := fun _ _ => True) (ends_set trivial) fun _ _ _ => ends_pure trivial

end Invocation

/-! ### Composites -/

namespace Application

open Invocation

variable {g : Graph} {ctx : Context} {pools : HostPools}

theorem declarationText_refuses {c : Composite} : OnlyRefuses (declarationText c) := by
  refine (onlyRefuses_mapM fun p _ => ?_).bind fun lines => onlyRefuses_pure _
  unfold declarationLine
  split
  · exact Submission.mainDefinition_refuses.bind fun _ => onlyRefuses_pure _
  · exact Submission.innerDefinition_refuses.bind fun _ => onlyRefuses_pure _

/-- **Why an application has no text**, if its members are in the graph. -/
theorem emit_refuses {composites : List Composite}
    (hlive : ∀ c ∈ composites, ∀ x ∈ c.nodes, g.contains x = true) :
    Settles (fun _ => True) (emit g ctx composites) pools := by
  refine ends_bind (P := fun _ _ => True) (ends_mapM trivial fun c hc t _ => ?_)
    fun _ _ _ => ends_pure trivial
  refine ends_bind (settles_liftM declarationText_refuses t) fun _ t _ => ?_
  refine ends_bind (P := fun _ _ => True) (ends_mapM trivial fun m hm t _ => ?_)
    fun _ t _ => ends_get_bind (ends_pure trivial)
  refine ends_bind (settles_liftM ?_ t) fun op t _ =>
    ends_bind (Invocation.emit_refuses ctx op t) fun _ _ _ => ends_pure trivial
  cases m with
  | node id =>
    have hid : id ∈ c.nodes := List.mem_filterMap.mpr ⟨.node id, hm, rfl⟩
    obtain ⟨op, hop⟩ := Graph.contains_iff.mp (hlive c hc id hid)
    simp only [memberOperator, hop]
    exact onlyRefuses_ok op
  | invocation op position => exact onlyRefuses_ok op

end Application

end StreamTopology
