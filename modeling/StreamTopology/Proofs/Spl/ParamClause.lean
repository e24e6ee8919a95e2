import StreamTopology.Spl.Invocation
import StreamTopology.Proofs.Json.Members

/-!
# The lines of the param clause

Arguments for the virtual machine come from two sides. The operator may have some, and the topology
has some for every Java operator; both belong on one line. The two are merged where the operator has
its own as a plain value. In any other form, as an expression or with a type, they are written like
any other parameter, and those of the topology get a second line of the same name.

Everything else about the clause is as it should be: it has all parameters of the operator, in their
order, and a Java operator gets all arguments of the topology, after its own if these were merged.

## Main definitions

* `Invocation.Unmerged`: the arguments of the operator and of the topology do not go together.
* `Invocation.ownVmArgs`: the arguments of the operator that are merged.

## Main results

* `Invocation.parameterText_once_iff`: when no name stands on two lines.
* `Invocation.javaOptions_split`: an operator with two lines of one name.
-/

namespace StreamTopology

namespace Literal

variable {vs ws : List Json} {ts : List String}

theorem untypedItems_append : untypedItems (vs ++ ws) = .ok ts ↔
    ∃ front back, untypedItems vs = .ok front ∧ untypedItems ws = .ok back ∧
      ts = front ++ back := by
  induction vs generalizing ts with
  | nil =>
    constructor
    · exact fun h => ⟨[], ts, rfl, h, rfl⟩
    · rintro ⟨_, back, hnil, hback, rfl⟩
      cases hnil
      exact hback
  | cons v vs ih =>
    rw [List.cons_append, untypedItems, untypedItems]
    simp only [bind_eq_ok, pure_eq_ok, ih]
    constructor
    · rintro ⟨t, ht, _, ⟨front, back, hfront, hback, rfl⟩, rfl⟩
      exact ⟨t :: front, back, ⟨t, ht, front, hfront, rfl⟩, hback, rfl⟩
    · rintro ⟨_, back, ⟨t, ht, front, hfront, rfl⟩, hback, rfl⟩
      exact ⟨t, ht, _, ⟨front, back, hfront, hback, rfl⟩, rfl⟩

/-- Texts are quoted one by one. -/
theorem untypedItems_strings (ss : List String) :
    untypedItems (ss.map Json.string) = .ok (ss.map Quoted.literal) := by
  induction ss with
  | nil => rfl
  | cons s ss ih =>
    rw [List.map_cons, untypedItems, ih]
    rfl

end Literal

namespace Invocation

variable {config : GraphConfig} {values : SubmissionValues} {op : Operator} {text : String}
  {es : List (String × Parameter)} {e : String × Parameter} {lines ls : List (String × String)}
  {name : String} {p : Parameter}

/-! ### Lines and parameters -/

/-- The names of the lines about submission parameters. -/
def submissionNames : List String := ["submissionParamNames", "submissionParamValues"]

/-- The text of a param clause. -/
def clauseText (lines : List (String × String)) : String :=
  if lines.isEmpty then ""
  else "    param\n" ++ String.join (lines.map fun l => "      " ++ l.1 ++ ": " ++ l.2 ++ ";\n")

/-- The arguments for the virtual machine that the operator has as a plain value. -/
def ownVmArgs (op : Operator) : List Json :=
  match op.parameters.get? vmArgParameter with
  | some (.literal value) => itemsOf value
  | _ => []

/-- The operator has arguments for the virtual machine in a form that is not merged, and the
topology has some for it as well. -/
def Unmerged (config : GraphConfig) (op : Operator) : Prop :=
  topologyVmArgs config op ≠ [] ∧
    ∃ p, op.parameters.get? vmArgParameter = some p ∧ isVmArgs (vmArgParameter, p) = false

theorem parameterText_eq_ok : parameterText config values op = .ok text ↔
    ∃ lines, parameterLines config values op = .ok lines ∧ text = clauseText lines := by
  simp only [parameterText, bind_eq_ok, pure_eq_ok, clauseText, eq_comm (a := text)]

/-- The lines of some parameters have their names, in order. -/
theorem names_mapM_parameterLine (h : es.mapM parameterLine = .ok ls) :
    ls.map Prod.fst = es.map Prod.fst := by
  induction es generalizing ls with
  | nil =>
    rw [List.mapM_nil] at h
    obtain rfl := pure_eq_ok.mp h
    rfl
  | cons e es ih =>
    rw [List.mapM_cons] at h
    obtain ⟨l, hl, h⟩ := bind_eq_ok.mp h
    obtain ⟨rest, hrest, h⟩ := bind_eq_ok.mp h
    obtain rfl := pure_eq_ok.mp h
    obtain ⟨_, _, rfl⟩ := map_eq_ok.mp hl
    rw [List.map_cons, List.map_cons, ih hrest]

/-- The lines of the parameters of some names are the lines of these names. -/
theorem mapM_parameterLine_filter {q : String → Bool} (h : es.mapM parameterLine = .ok ls) :
    (es.filter fun e => q e.1).mapM parameterLine = .ok (ls.filter fun l => q l.1) := by
  induction es generalizing ls with
  | nil =>
    rw [List.mapM_nil] at h
    obtain rfl := pure_eq_ok.mp h
    rfl
  | cons e es ih =>
    rw [List.mapM_cons] at h
    obtain ⟨l, hl, h⟩ := bind_eq_ok.mp h
    obtain ⟨rest, hrest, h⟩ := bind_eq_ok.mp h
    obtain rfl := pure_eq_ok.mp h
    have hname : l.1 = e.1 := by
      obtain ⟨_, _, rfl⟩ := map_eq_ok.mp hl
      rfl
    rw [List.filter_cons, List.filter_cons, hname]
    split
    · rw [List.mapM_cons, hl, ih hrest]
      rfl
    · exact ih hrest

/-! ### The arguments for the virtual machine -/

theorem isVmArgs_iff : isVmArgs e = true ↔ e.1 = vmArgParameter ∧ ∃ v, e.2 = .literal v := by
  obtain ⟨name, parameter⟩ := e
  cases parameter <;> simp [isVmArgs]

/-- **The line of the arguments**: the operator's own, if they are merged, and those of the topology
behind them. -/
theorem vmArgLines_cases (h : vmArgLines config op = .ok ls) :
    (ls = [] ∧ topologyVmArgs config op = [] ∧
        ∀ v, op.parameters.get? vmArgParameter ≠ some (.literal v)) ∨
      ∃ own topology, ls = [(vmArgParameter, ", ".intercalate (own ++ topology))] ∧
        Literal.untypedItems (ownVmArgs op) = .ok own ∧
        Literal.untypedItems (topologyVmArgs config op) = .ok topology ∧
        (topologyVmArgs config op ≠ [] ∨
          ∃ v, op.parameters.get? vmArgParameter = some (.literal v)) := by
  have hline : ∀ args, (Literal.untyped (.array args)).map (fun text => [(vmArgParameter, text)]) =
      .ok ls → args = ownVmArgs op ++ topologyVmArgs config op →
      ∃ own topology, ls = [(vmArgParameter, ", ".intercalate (own ++ topology))] ∧
        Literal.untypedItems (ownVmArgs op) = .ok own ∧
        Literal.untypedItems (topologyVmArgs config op) = .ok topology := by
    rintro _ hline rfl
    obtain ⟨text, htext, rfl⟩ := map_eq_ok.mp hline
    rw [Literal.untyped, bind_eq_ok] at htext
    obtain ⟨ts, hts, htext⟩ := htext
    obtain rfl := pure_eq_ok.mp htext
    obtain ⟨own, topology, hown, htopology, rfl⟩ := Literal.untypedItems_append.mp hts
    exact ⟨own, topology, rfl, hown, htopology⟩
  unfold vmArgLines vmArgs? at h
  split at h
  next hnone =>
    split at hnone
    next => cases hnone
    next hplain =>
      split at hnone
      next hempty =>
        cases h
        exact Or.inl ⟨rfl, List.isEmpty_iff.mp hempty, hplain⟩
      next => cases hnone
  next args hsome =>
    split at hsome
    next v hv =>
      obtain ⟨own, topology, hls, hown, htopology⟩ := hline args h (by
        rw [ownVmArgs, hv]
        exact (Option.some.inj hsome).symm)
      exact Or.inr ⟨own, topology, hls, hown, htopology, Or.inr ⟨v, hv⟩⟩
    next hplain =>
      split at hsome
      next => cases hsome
      next hempty =>
        have hown : ownVmArgs op = [] := by
          unfold ownVmArgs
          split
          next v hv => exact absurd hv (hplain v)
          next => rfl
        obtain ⟨own, topology, hls, hown, htopology⟩ := hline args h (by
          rw [hown]
          exact (Option.some.inj hsome).symm)
        exact Or.inr ⟨own, topology, hls, hown, htopology,
          Or.inl fun hnil => hempty (List.isEmpty_iff.mpr hnil)⟩

/-! ### The whole clause -/

/-- The lines about submission parameters have names of their own. -/
theorem submissionLines_names :
    ((submissionLines values op).map Prod.fst).Sublist submissionNames := by
  unfold submissionLines
  split
  · split
    · exact List.nil_sublist _
    · exact List.Sublist.refl _
  · exact List.nil_sublist _

theorem parameterLines_eq_ok : parameterLines config values op = .ok lines ↔
    ∃ own vmArgs, (op.parameters.entries.filter fun e => !isVmArgs e).mapM parameterLine = .ok own ∧
      vmArgLines config op = .ok vmArgs ∧ lines = own ++ vmArgs ++ submissionLines values op := by
  simp only [parameterLines, bind_eq_ok, pure_eq_ok, eq_comm (a := lines)]
  exact ⟨fun ⟨own, hown, vmArgs, hvm, h⟩ => ⟨own, vmArgs, hown, hvm, h⟩,
    fun ⟨own, vmArgs, hown, hvm, h⟩ => ⟨own, hown, vmArgs, hvm, h⟩⟩

section

variable {own vmArgs : List (String × String)}
  (hown : (op.parameters.entries.filter fun e => !isVmArgs e).mapM parameterLine = .ok own)
  (hvm : vmArgLines config op = .ok vmArgs)

include hvm

/-- The lines behind those of the parameters. -/
theorem filter_others :
    (vmArgs ++ submissionLines values op).filter
      (fun l => decide (l.1 ∉ vmArgParameter :: submissionNames)) = [] := by
  refine List.filter_eq_nil_iff.mpr fun l hl => ?_
  rw [decide_eq_true_eq, not_not]
  rcases List.mem_append.mp hl with hl | hl
  · rcases vmArgLines_cases hvm with ⟨rfl, _⟩ | ⟨_, _, rfl, _⟩
    · cases hl
    · rw [List.mem_singleton.mp hl]
      exact List.mem_cons_self
  · exact List.mem_cons_of_mem _ (submissionLines_names.subset (List.mem_map_of_mem hl))

/-- **The topology's arguments** for a Java operator come last on a line. -/
theorem topologyVmArgs_mem (hjava : op.isJava = true) (hargs : config.vmArgs ≠ []) :
    ∃ args, Literal.untypedItems (ownVmArgs op) = .ok args ∧
      (vmArgParameter, ", ".intercalate (args ++ config.vmArgs.map Quoted.literal)) ∈ vmArgs := by
  have htopology : topologyVmArgs config op = config.vmArgs.map .string := if_pos hjava
  rcases vmArgLines_cases hvm with ⟨_, hnone, _⟩ | ⟨args, topology, rfl, howns, htexts, _⟩
  · rw [htopology, List.map_eq_nil_iff] at hnone
    exact absurd hnone hargs
  · rw [htopology, Literal.untypedItems_strings] at htexts
    obtain rfl := Except.ok.inj htexts
    exact ⟨args, howns, List.mem_cons_self⟩

omit hvm

include hown

/-- **The order of the lines** is that of the parameters. -/
theorem mapM_parameterLine_others (hnames : ∀ e ∈ op.parameters.entries, e.1 ∉ submissionNames) :
    (op.parameters.entries.filter fun e => e.1 ≠ vmArgParameter).mapM parameterLine =
      .ok (own.filter fun l => l.1 ∉ vmArgParameter :: submissionNames) := by
  have hsame : (op.parameters.entries.filter fun e => e.1 ≠ vmArgParameter) =
      (op.parameters.entries.filter fun e => !isVmArgs e).filter
        fun e => decide (e.1 ∉ vmArgParameter :: submissionNames) := by
    rw [List.filter_filter]
    refine List.filter_congr fun e he => ?_
    have hother : e.1 ∉ vmArgParameter :: submissionNames ↔ e.1 ≠ vmArgParameter := by
      rw [List.mem_cons, not_or, and_iff_left (hnames e he)]
    by_cases hname : e.1 = vmArgParameter
    · simp [hname]
    · have hplain : isVmArgs e = false :=
        Bool.eq_false_iff.mpr fun h => hname (isVmArgs_iff.mp h).1
      simp only [hplain, hother, Bool.not_false, Bool.and_true]
  rw [hsame]
  exact mapM_parameterLine_filter (q := fun n => decide (n ∉ vmArgParameter :: submissionNames))
    hown

variable (hkeys : (op.parameters.entries.map Prod.fst).Nodup)

include hkeys

/-- The arguments of the operator are written like any other parameter if they are not merged. -/
theorem vmArg_mem_names :
    vmArgParameter ∈ own.map Prod.fst ↔
      ∃ p, op.parameters.get? vmArgParameter = some p ∧ isVmArgs (vmArgParameter, p) = false := by
  rw [names_mapM_parameterLine hown, List.mem_map]
  constructor
  · rintro ⟨⟨name, p⟩, he, rfl⟩
    obtain ⟨he, hplain⟩ := List.mem_filter.mp he
    exact ⟨p, (lookup_eq_some_iff hkeys).mpr he, by simpa using hplain⟩
  · rintro ⟨p, hp, hplain⟩
    exact ⟨_, List.mem_filter.mpr ⟨(lookup_eq_some_iff hkeys).mp hp, by simpa using hplain⟩, rfl⟩

include hvm

/-- Every parameter has a line. -/
theorem mem_names_of_parameter (he : e ∈ op.parameters.entries) :
    e.1 ∈ (own ++ vmArgs).map Prod.fst := by
  rw [List.map_append, List.mem_append]
  by_cases hplain : isVmArgs e = true
  · obtain ⟨hname, v, hv⟩ := isVmArgs_iff.mp hplain
    have hget : op.parameters.get? vmArgParameter = some (.literal v) :=
      (lookup_eq_some_iff hkeys).mpr (hname ▸ hv ▸ he)
    rcases vmArgLines_cases hvm with ⟨_, _, hnone⟩ | ⟨_, _, rfl, _⟩
    · exact absurd hget (hnone v)
    · exact Or.inr (hname ▸ List.mem_cons_self)
  · refine Or.inl ?_
    rw [names_mapM_parameterLine hown]
    exact List.mem_map_of_mem (List.mem_filter.mpr ⟨he, by simpa using hplain⟩)

/-- **Two lines of one name** can only be those of the arguments for the virtual machine. -/
theorem nodup_names_iff (hnames : ∀ e ∈ op.parameters.entries, e.1 ∉ submissionNames) :
    ((own ++ vmArgs ++ submissionLines values op).map Prod.fst).Nodup ↔ ¬ Unmerged config op := by
  have hsubmissions : ((submissionLines values op).map Prod.fst).Sublist submissionNames :=
    submissionLines_names
  have hown_nodup : (own.map Prod.fst).Nodup := by
    rw [names_mapM_parameterLine hown]
    exact hkeys.sublist (List.filter_sublist.map _)
  have hsubmissions_nodup : ((submissionLines values op).map Prod.fst).Nodup :=
    List.Nodup.sublist hsubmissions (by decide)
  have hapart : ∀ n ∈ own.map Prod.fst, n ∉ (submissionLines values op).map Prod.fst := by
    intro n hn hn'
    rw [names_mapM_parameterLine hown] at hn
    obtain ⟨e, he, rfl⟩ := List.mem_map.mp hn
    exact hnames e (List.mem_of_mem_filter he) (hsubmissions.subset hn')
  rw [List.append_assoc, List.map_append, List.map_append, List.nodup_append, Unmerged,
    ← vmArg_mem_names hown hkeys]
  rcases vmArgLines_cases hvm with ⟨rfl, hnone, _⟩ | ⟨_, _, rfl, _, _, hsome⟩
  · refine iff_of_true ⟨hown_nodup, hsubmissions_nodup, ?_⟩ fun h => h.1 hnone
    rintro n hn _ hn' rfl
    exact hapart n hn hn'
  · have hrest : ([vmArgParameter] ++ (submissionLines values op).map Prod.fst).Nodup := by
      refine List.nodup_cons.mpr ⟨fun h => ?_, hsubmissions_nodup⟩
      exact absurd (hsubmissions.subset h) (by decide)
    constructor
    · rintro ⟨_, _, hdisjoint⟩ ⟨_, hvmArg⟩
      exact hdisjoint _ hvmArg _ List.mem_cons_self rfl
    · intro hmerged
      refine ⟨hown_nodup, hrest, ?_⟩
      rintro n hn _ hn' rfl
      rcases List.mem_cons.mp hn' with rfl | hn'
      · -- the operator's own arguments stand on a line, so they are no plain value
        rcases hsome with hsome | ⟨v, hv⟩
        · exact hmerged ⟨hsome, hn⟩
        · obtain ⟨p, hp, hplain⟩ := (vmArg_mem_names hown hkeys).mp hn
          obtain rfl := Option.some.inj (hv.symm.trans hp)
          cases hplain
      · exact hapart n hn hn'

end

/-- **When no name stands on two lines.** If the param clause of an operator can be written, a name
stands on two lines exactly if the operator has arguments for the virtual machine that are not
merged and the topology has some for it. In any case every parameter of the operator has a line, the
lines of parameters other than those arguments come in their order, and a Java operator has a line
that ends with all arguments of the topology. -/
theorem parameterText_once_iff (hkeys : (op.parameters.entries.map Prod.fst).Nodup)
    (hnames : ∀ e ∈ op.parameters.entries, e.1 ∉ submissionNames)
    (htext : parameterText config values op = .ok text) :
    ∃ lines, parameterLines config values op = .ok lines ∧ text = clauseText lines ∧
      ((lines.map Prod.fst).Nodup ↔ ¬ Unmerged config op) ∧
      (∀ e ∈ op.parameters.entries, e.1 ∈ lines.map Prod.fst) ∧
      (op.parameters.entries.filter fun e => e.1 ≠ vmArgParameter).mapM parameterLine =
        .ok (lines.filter fun l => l.1 ∉ vmArgParameter :: submissionNames) ∧
      (op.isJava = true → config.vmArgs ≠ [] →
        ∃ args, Literal.untypedItems (ownVmArgs op) = .ok args ∧
          (vmArgParameter, ", ".intercalate (args ++ config.vmArgs.map Quoted.literal)) ∈
            lines) := by
  obtain ⟨lines, hlines, rfl⟩ := parameterText_eq_ok.mp htext
  obtain ⟨own, vmArgs, hown, hvm, rfl⟩ := parameterLines_eq_ok.mp hlines
  refine ⟨_, hlines, rfl, nodup_names_iff hown hvm hkeys hnames, fun e he => ?_, ?_,
    fun hjava hargs => ?_⟩
  · rw [List.map_append]
    exact List.mem_append_left _ (mem_names_of_parameter hown hvm hkeys he)
  · rw [List.append_assoc, List.filter_append, filter_others hvm, List.append_nil]
    exact mapM_parameterLine_others hown hnames
  · obtain ⟨args, howns, hmem⟩ := topologyVmArgs_mem hvm hjava hargs
    exact ⟨args, howns, List.mem_append_left _ (List.mem_append_right _ hmem)⟩

/-! ### Arguments in another form -/

/-- A Java operator that is given its arguments as an expression. -/
def javaOptions : Operator :=
  { name := "j", kind := "x::J", language := some "java"
    parameters := ⟨[("vmArg", .expression "jvmOptions")]⟩ }

/-- A topology with an argument for Java operators. -/
def javaConfig : GraphConfig := { vmArgs := ["-Dfoo=1"] }

/-- The same operator with a plain value in place of the expression. -/
def javaHeap : Operator :=
  { javaOptions with parameters := ⟨[("vmArg", .literal (.array [.string "-Xmx1g"]))]⟩ }

theorem javaHeap_text : parameterText javaConfig {} javaHeap =
    .ok (clauseText [("vmArg", "\"-Xmx1g\", \"-Dfoo=1\"")]) := rfl

/-- A plain value is merged into one line. -/
theorem parameterText_once_iff_javaHeap :
    (javaHeap.parameters.entries.map Prod.fst).Nodup ∧
      (∀ e ∈ javaHeap.parameters.entries, e.1 ∉ submissionNames) ∧
      ∃ lines, parameterLines javaConfig {} javaHeap = .ok lines ∧
        parameterText javaConfig {} javaHeap = .ok (clauseText lines) ∧
        (lines.map Prod.fst).Nodup := by
  have hkeys : (javaHeap.parameters.entries.map Prod.fst).Nodup := by decide
  have hnames : ∀ e ∈ javaHeap.parameters.entries, e.1 ∉ submissionNames := by decide
  obtain ⟨lines, hlines, htext, hnodup, _⟩ := parameterText_once_iff hkeys hnames javaHeap_text
  refine ⟨hkeys, hnames, lines, hlines, htext ▸ javaHeap_text, hnodup.mpr ?_⟩
  rintro ⟨_, p, hp, hplain⟩
  obtain rfl := Option.some.inj hp
  cases hplain

/-- **Two lines of one name.** The expression is written as it is, and the argument of the topology
gets a line of the same name. -/
theorem javaOptions_split :
    (javaOptions.parameters.entries.map Prod.fst).Nodup ∧
      (∀ e ∈ javaOptions.parameters.entries, e.1 ∉ submissionNames) ∧
      javaOptions.isJava = true ∧
      ∃ lines, parameterLines javaConfig {} javaOptions = .ok lines ∧
        lines = [("vmArg", "jvmOptions"), ("vmArg", "\"-Dfoo=1\"")] ∧
        parameterText javaConfig {} javaOptions = .ok (clauseText lines) ∧
        ¬ (lines.map Prod.fst).Nodup :=
  ⟨by decide, by decide, by decide, _, rfl, by decide, rfl, by decide⟩

end Invocation

end StreamTopology
