import StreamTopology.Proofs.Number.Integer
import StreamTopology.Proofs.Text.Quoted
import StreamTopology.Spl.Application
import Mathlib.Data.List.Forall2

/-!
# Configurations as they are written

An operator is colocated and names its host pool in its configuration, and the main composite
declares the pools in its own. That a directive is handed to the function that writes it says
nothing about the text: the function may lose it, or write another one beside it. So the texts are
spelled out here, with a rule for each form that they take. The functions that write them come
second, with a lemma for each that it keeps to the rules.

## Main definitions

* `Invocation.ColocationText`: how an operator is colocated by a key.
* `Invocation.PlacementClause`, `Invocation.ConfigClause`: the configuration of an operator.
* `Application.PoolDeclaration`, `Application.MainConfig`: that of the main composite.

## Main results

* `Invocation.ColocationText.unique`: a text says whether the key is completed by the number of the
  channel.
* `Invocation.configClause_configurationText`, `Application.mainConfig_configurationText`: what is
  written for an operator, and for the main composite.
-/

namespace StreamTopology

/-- The text is a string literal, and it is that of the string. -/
def Quoted.IsLiteral (text s : String) : Prop := read? text.toList = some (s.toList, [])

theorem Quoted.isLiteral_literal (s : String) : IsLiteral (literal s) s := by
  rw [IsLiteral, literal, String.toList_ofList, ← List.append_nil (encode _), read?_encode]

/-- A literal with something behind it is not a literal. -/
theorem Quoted.IsLiteral.eq_empty {text rest s : String} (h : IsLiteral text s)
    (h' : IsLiteral (text ++ rest) s) : rest = "" := by
  rw [IsLiteral, String.toList_append, read?_append h] at h'
  exact String.toList_injective (congrArg Prod.snd (Option.some.inj h'))

/-! ### Operators -/

namespace Invocation

variable {op : Operator} {pool : Option String} {key text : String} {isScoped : String → Bool}

/-- The colocation of a key that is not scoped. -/
def plainColocation (key : String) : String :=
  "partitionColocation(" ++ Quoted.literal key ++ ")"

/-- The colocation of a key that is scoped: the number of the channel completes the key. -/
def channelColocation (key : String) : String :=
  "partitionColocation(" ++ Quoted.literal key ++ "+'$'+((rstring)getChannel())" ++ ")"

/-- The text colocates operators by the key, which it has as a string literal. In the one form that
is all, in the other one the number of the channel completes the key. -/
inductive ColocationText (key : String) : Bool → String → Prop
  | plain {literal : String} (hliteral : Quoted.IsLiteral literal key) :
      ColocationText key false ("partitionColocation(" ++ literal ++ ")")
  | channel {literal : String} (hliteral : Quoted.IsLiteral literal key) :
      ColocationText key true
        ("partitionColocation(" ++ literal ++ "+'$'+((rstring)getChannel())" ++ ")")

/-- The line about the viewability of the streams. -/
inductive ViewabilityLine : Option Bool → String → Prop
  | absent : ViewabilityLine none ""
  | shown : ViewabilityLine (some true) "    streamViewability: true;\n"
  | hidden : ViewabilityLine (some false) "    streamViewability: false;\n"

/-- The line about the queue of the operator. -/
inductive QueueLine : Option Queue → String → Prop
  | absent : QueueLine none ""
  | queue (q : Queue) : QueueLine (some q)
      ("    threadedPort: queue(" ++ q.inputPortName ++ ", " ++ q.congestionPolicy ++ "," ++
        toString q.queueSize ++ ");\n")

/-- The placement, with the expression at which the operator is colocated and the name of its host
pool. An operator may have either of them alone. -/
inductive PlacementClause : Option String → Option String → String → Prop
  | absent : PlacementClause none none ""
  | colocated (expression : String) : PlacementClause (some expression) none
      ("   placement:       " ++ expression ++ "\n" ++
       "    ;\n")
  | hosted (pool : String) : PlacementClause none (some pool)
      ("   placement:       host(" ++ pool ++ ")\n" ++
       "    ;\n")
  | both (expression pool : String) : PlacementClause (some expression) (some pool)
      ("   placement:       " ++ expression ++ "\n" ++
       ",      host(" ++ pool ++ ")\n" ++
       "    ;\n")

/-- The configuration of an operator. It has no heading if there is nothing under it. -/
def ConfigClause (op : Operator) (expression pool : Option String) (text : String) : Prop :=
  ∃ viewability queue placement, ViewabilityLine op.config.streamViewability viewability ∧
    QueueLine op.config.queue queue ∧ PlacementClause expression pool placement ∧
    text = if viewability ++ queue ++ placement = "" then ""
      else "  config\n" ++ viewability ++ queue ++ placement

theorem colocation_eq : colocation isScoped key =
    if isScoped key then channelColocation key else plainColocation key := by
  unfold colocation channelColocation plainColocation
  by_cases h : isScoped key = true
  · rw [if_pos h, if_pos h]
  · rw [if_neg h, if_neg h, String.append_empty]

/-- **The form of a colocation** says whether the key is scoped. -/
theorem colocationText_colocation :
    ColocationText key (isScoped key) (colocation isScoped key) := by
  rw [colocation_eq]
  cases isScoped key with
  | false => exact .plain (Quoted.isLiteral_literal key)
  | true => exact .channel (Quoted.isLiteral_literal key)

/-- What stands behind a literal cannot be taken for a part of it. -/
theorem ColocationText.plain_ne_channel {literal literal' : String}
    (h : Quoted.IsLiteral literal key) (h' : Quoted.IsLiteral literal' key) :
    "partitionColocation(" ++ literal ++ ")" ≠
      "partitionColocation(" ++ literal' ++ "+'$'+((rstring)getChannel())" ++ ")" := by
  intro htext
  have hlonger : literal = literal' ++ "+'$'+((rstring)getChannel())" := by
    refine (String.append_right_inj "partitionColocation(").mp ?_
    rw [← String.append_assoc]
    exact (String.append_left_inj ")").mp htext
  rw [hlonger] at h
  exact absurd (h'.eq_empty h) (by decide)

/-- A text is not of both forms. -/
theorem ColocationText.unique {b b' : Bool} (h : ColocationText key b text)
    (h' : ColocationText key b' text) : b = b' := by
  rcases h with ⟨h⟩ | ⟨h⟩
  · generalize htext : "partitionColocation(" ++ _ ++ ")" = text at h'
    rcases h' with ⟨_⟩ | ⟨h'⟩
    · rfl
    · exact absurd htext (plain_ne_channel h h')
  · generalize htext : "partitionColocation(" ++ _ ++ _ ++ ")" = text at h'
    rcases h' with ⟨h'⟩ | ⟨_⟩
    · exact absurd htext.symm (plain_ne_channel h' h)
    · rfl

theorem viewabilityLine_boolText (viewability : Option Bool) : ViewabilityLine viewability
    ((viewability.map fun b =>
      "    streamViewability: " ++ Literal.boolText b ++ ";\n").getD "") := by
  rcases viewability with _ | _ | _
  · exact .absent
  · exact .hidden
  · exact .shown

theorem queueLine_intText (queue : Option Queue) : QueueLine queue
    ((queue.map fun q => "    threadedPort: queue(" ++ q.inputPortName ++ ", " ++
      q.congestionPolicy ++ "," ++ Decimal.intText q.queueSize ++ ");\n").getD "") := by
  rcases queue with _ | q
  · exact .absent
  · rw [Option.map_some, Option.getD_some, Decimal.intText_eq_toString]
    exact .queue q

theorem placementText_singleton (directive : String) : placementText [directive] =
    "   placement:       " ++ directive ++ "\n" ++ "    ;\n" := by
  rw [placementText, if_neg (by simp), List.map_singleton, String.intercalate_singleton]
  exact String.toList_injective (by simp)

theorem placementText_pair (first second : String) : placementText [first, second] =
    "   placement:       " ++ first ++ "\n" ++ ",      " ++ second ++ "\n" ++ "    ;\n" := by
  rw [placementText, if_neg (by simp), List.map_cons, List.map_singleton,
    String.intercalate_cons_cons, String.intercalate_singleton]
  exact String.toList_injective (by simp)

/-- **What is written about the placement.** -/
theorem placementClause_placementText (expression : Option String) :
    PlacementClause expression pool (placementText
      (expression.toList ++ (pool.map fun name => "host(" ++ name ++ ")").toList)) := by
  rcases expression with _ | e <;> rcases pool with _ | name
  · exact .absent
  · have htext : placementText ["host(" ++ name ++ ")"] =
        "   placement:       host(" ++ name ++ ")\n" ++ "    ;\n" := by
      rw [placementText_singleton]
      exact String.toList_injective (by simp)
    exact htext ▸ .hosted name
  · exact placementText_singleton e ▸ .colocated e
  · have htext : placementText [e, "host(" ++ name ++ ")"] =
        "   placement:       " ++ e ++ "\n" ++ ",      host(" ++ name ++ ")\n" ++ "    ;\n" := by
      rw [placementText_pair]
      exact String.toList_injective (by simp)
    exact htext ▸ .both e name

/-- **What is written for an operator.** -/
theorem configClause_configurationText : ConfigClause op
    (op.placement.colocateKey.map fun key =>
      if isScoped key then channelColocation key else plainColocation key) pool
    (configurationText isScoped op pool) := by
  have hkeys : colocation isScoped = fun key =>
      if isScoped key then channelColocation key else plainColocation key :=
    funext fun _ => colocation_eq
  rw [← hkeys]
  refine ⟨_, _, _, viewabilityLine_boolText _, queueLine_intText _,
    placementClause_placementText _, ?_⟩
  simp only [configurationText, directives, String.isEmpty_iff, String.append_assoc]

end Invocation

/-! ### The main composite -/

namespace Application

/-- The declaration of a host pool. Its tags stand between brackets, as string literals with commas
between them. -/
def PoolDeclaration (p : HostPool) (text : String) : Prop :=
  ∃ literals, List.Forall₂ Quoted.IsLiteral literals p.tags ∧
    text = "    " ++ p.name ++ "=createPool(\x7btags=[" ++ ",".intercalate literals ++
      "]\x7d, Sys.Shared)"

/-- The configuration of the main composite: the declarations of all host pools, with commas between
them, and the period of checkpoints. -/
inductive MainConfig : List HostPool → Option Checkpoint → String → Prop
  | absent : MainConfig [] none ""
  | checkpoint (c : Checkpoint) : MainConfig [] (some c)
      ("  config\n" ++
       "    checkpoint: periodic(" ++ checkpointText c ++ ");\n")
  | pools {ps : List HostPool} {declarations : List String} (hps : ps ≠ [])
      (hdeclarations : List.Forall₂ PoolDeclaration ps declarations) : MainConfig ps none
      ("  config\n" ++
       "    hostPool:\n" ++ ",".intercalate declarations ++ ";\n")
  | both {ps : List HostPool} {declarations : List String} (c : Checkpoint) (hps : ps ≠ [])
      (hdeclarations : List.Forall₂ PoolDeclaration ps declarations) : MainConfig ps (some c)
      ("  config\n" ++
       "    hostPool:\n" ++ ",".intercalate declarations ++ ";\n" ++
       "    checkpoint: periodic(" ++ checkpointText c ++ ");\n")

theorem poolDeclaration_poolText (p : HostPool) : PoolDeclaration p (poolText p) := by
  refine ⟨p.tags.map Quoted.literal, ?_, rfl⟩
  exact List.forall₂_map_left_iff.mpr (List.forall₂_same.mpr fun s _ => Quoted.isLiteral_literal s)

/-- **What is written for the main composite.** -/
theorem mainConfig_configurationText (config : GraphConfig) (ps : List HostPool) :
    MainConfig ps config.checkpoint (configurationText config ⟨ps⟩) := by
  have hdeclarations : List.Forall₂ PoolDeclaration ps (ps.map poolText) :=
    List.forall₂_map_right_iff.mpr (List.forall₂_same.mpr fun p _ => poolDeclaration_poolText p)
  by_cases hps : ps = [] <;> rcases hcheckpoint : config.checkpoint with _ | c
  · have htext : configurationText config ⟨ps⟩ = "" := by
      simp [configurationText, hps, hcheckpoint]
    rw [htext, hps]
    exact .absent
  · have htext : configurationText config ⟨ps⟩ = "  config\n" ++
        "    checkpoint: periodic(" ++ checkpointText c ++ ");\n" :=
      String.toList_injective (by simp [configurationText, hps, hcheckpoint])
    rw [htext, hps]
    exact .checkpoint c
  · have htext : configurationText config ⟨ps⟩ = "  config\n" ++
        "    hostPool:\n" ++ ",".intercalate (ps.map poolText) ++ ";\n" :=
      String.toList_injective (by simp [configurationText, hps, hcheckpoint])
    rw [htext]
    exact .pools hps hdeclarations
  · have htext : configurationText config ⟨ps⟩ = "  config\n" ++
        "    hostPool:\n" ++ ",".intercalate (ps.map poolText) ++ ";\n" ++
        "    checkpoint: periodic(" ++ checkpointText c ++ ");\n" :=
      String.toList_injective (by simp [configurationText, hps, hcheckpoint])
    rw [htext]
    exact .both c hps hdeclarations

end Application

end StreamTopology
