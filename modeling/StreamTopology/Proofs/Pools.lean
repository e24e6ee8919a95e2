import StreamTopology.Proofs.Composite.CallTree
import StreamTopology.Proofs.Placement
import StreamTopology.Proofs.Spl.Emission

/-!
# Host pools of an application

A run emits all composites with one table of host pools, the main composite last. So the pools that
the main composite declares are those of the operators of all composites, and what an operator
names is one of them.

## Main definitions

* `Session.Pooled`: the host pools of a run that succeeds.

## Main results

* `Session.generate_pools`: a run that succeeds is pooled, and an operator whose emission fails
  enters no pool.
-/

namespace StreamTopology

namespace Session

variable {s : Session} {g : Graph} {r : Generated}

/-- The run comes to composites of which the last is the main one, and their text reads with one
table of pools throughout: what operators name and what the main composite declares. The table has
the pools of the operators that the composites invoke. -/
def Pooled (s : Session) (g : Graph) (r : Generated) : Prop :=
  ∃ t inner main values pools, s.ComesTo g (inner ++ [main]) t ∧
    SubmissionValues.ofParameters g.parameters = .ok values ∧
    main.isMain = true ∧ (∀ c ∈ inner, c.isMain = false) ∧
    Application.Reads t ⟨t.config, values, Composite.isChannelScoped t (inner ++ [main])⟩ pools
      (inner ++ [main]) r.spl ∧
    r.hostPools = pools.pools.length ∧
    pools.Declares (Application.invoked t (inner ++ [main]))

/-- The emission that a run that succeeds ends with. -/
theorem yields_of_emit {t : Graph} {values : SubmissionValues} {cs : List Composite} {n : Nat}
    (h : emit t values cs n = .ok r) : ∃ pools : HostPools,
      Yields (Application.emit t ⟨t.config, values, Composite.isChannelScoped t cs⟩ cs) {} r.spl
        pools ∧ r.hostPools = pools.pools.length := by
  unfold emit at h
  dsimp only at h
  obtain ⟨text, htext, rfl⟩ := map_eq_ok.mp h
  exact ⟨_, Prod.ext htext rfl, rfl⟩

theorem pooled_of_generate (h : (s.generate g).result = .ok r) : s.Pooled g r := by
  obtain ⟨values, stats, w, cs, done, hvalues, hprepare, hseparate, _, hemit⟩ :=
    stages_of_generate h
  obtain ⟨inner, main, rfl, hmain, _, hgrown⟩ := Separation.separate_grown hseparate
  obtain ⟨pools, htext, hcount⟩ := yields_of_emit hemit
  obtain ⟨hpools, hreads⟩ := Application.emit_reads hgrown.inner htext
  refine ⟨done.graph, inner, main, values, pools,
    ⟨values, stats, w, done, hvalues, hprepare, hseparate, rfl⟩, hvalues, hmain, hgrown.inner,
    hreads, hcount, ?_⟩
  rw [hpools]
  exact HostPools.gathered_foldl.declares

/-- **Host pools are complete, and there is one for each tag set.** In a run that succeeds, the
pools that the main composite declares have different names and different tag sets. Every operator
of any composite that has a tag that is not empty names the one pool with the set of its tags that
are not empty, in whatever order and however often it lists them; every other operator names none,
and every pool is named by some operator. Where the emission of an operator fails, the table is as
it was. -/
theorem generate_pools (s : Session) (g : Graph) :
    (∀ r, (s.generate g).result = .ok r → s.Pooled g r) ∧
      ∀ ctx op ps e ps', (Invocation.emit ctx op).run.run ps = (.error e, ps') → ps' = ps := by
  refine ⟨fun r => pooled_of_generate, fun ctx op ps e ps' h => ?_⟩
  have hends : Ends (fun _ _ => True) (fun _ t => t = ps) (Invocation.emit ctx op) ps :=
    Invocation.emit_ends
  unfold Ends at hends
  rw [h] at hends
  exact hends

/-- A source with tags in disorder, and a sink with the same tags, once each. -/
def taggedPair : Graph := Graph.reindexed
  { name := "taggedPair"
    slots := [
      some { name := "s", kind := "Beacon"
             outputs := [{ name := "so", connections := ["ti"] }]
             config := { placement := { resourceTags := ["b", "", "a", "b"] } } },
      some { name := "t", kind := "Custom", inputs := [{ name := "ti", connections := ["so"] }]
             config := { placement := { resourceTags := ["a", "b"] } } }]
    order := (List.range 2).map Handle.mk }

/-- The pair with its region. -/
def taggedPairJoined : Graph :=
  taggedPair.mapAt [⟨0⟩, ⟨1⟩] (Operator.joined (isolateRegionName 0))

/-- The pair after preparation. -/
def taggedPairPrepared : Graph :=
  (PassByReference.run.run.run (Colocation.run.run.run taggedPairJoined).2).2

theorem taggedPair_isolation : Yields Isolation.run { graph := taggedPair } 0
    { graph := taggedPairJoined, counters := { isolate := 1 } } := by
  have hof : Graph.ofDescription taggedPair.toDescription = .ok taggedPair := by decide
  have hwalk : taggedPair.walk Isolation.bounds [⟨0⟩] = [⟨0⟩, ⟨1⟩] :=
    Graph.walkFrom_of_within (n := 2) (by decide)
  have hrun : Yields Isolation.run { graph := taggedPair } 0 _ :=
    Isolation.yields_run_of_island (.ofDescription hof) (by decide)
      (show taggedPair.sources = [⟨0⟩] by decide) rfl rfl
  rw [hwalk] at hrun
  exact hrun

theorem taggedPair_prepare : Yields Preparation.run { graph := taggedPair } ⟨0, 0, 0, 0⟩
    { graph := taggedPairPrepared, counters := { isolate := 1 } } := by
  have hwalk : taggedPairJoined.walk (Bounds.around []) [⟨0⟩] = [⟨0⟩, ⟨1⟩] :=
    Graph.walkFrom_of_within (n := 2) (by decide)
  have hthreaded : Yields ThreadedPorts.run taggedPairJoined 0 taggedPairJoined := by
    rw [ThreadedPorts.run, yields_get_bind]
    show Yields ((taggedPairJoined.walk (Bounds.around []) [⟨0⟩]).mapM ThreadedPorts.settle >>= _)
      _ _ _
    rw [hwalk]
    rfl
  rw [Preparation.run, yields_get_bind]
  simp only [yields_bind, yields_pure, yields_liftM]
  exact ⟨_, _, ⟨rfl, rfl⟩, _, _, rfl, _, _, taggedPair_isolation, _, _, rfl, _, _,
    yields_onGraph.mpr ⟨_, hthreaded, rfl⟩, _, _, rfl, _, _, rfl, _, _, rfl, _, _, rfl, _, _, rfl,
    rfl, rfl⟩

theorem taggedPair_generate : ∃ r, (generate {} taggedPair).result = .ok r := by
  have hplan : taggedPairPrepared.plan = .ok (.node ⟨0⟩ (.node ⟨1⟩ (.done none))) :=
    Graph.planFrom_of_within (n := 4) (by decide)
  have hvalues : SubmissionValues.ofParameters taggedPair.parameters = .ok {} := rfl
  have hseparate : Yields (Separation.separate {}) { graph := taggedPairPrepared, count := 0 }
      _ _ :=
    Separation.yields_separate.mpr ⟨_, _, _, _, hplan, rfl, rfl, rfl, rfl⟩
  exact exists_generate hvalues taggedPair_prepare hseparate (by decide)

/-- An operator with a tag, and with a parameter that has no text. -/
def unwritable : Operator :=
  { name := "w", kind := "Beacon"
    parameters := { entries := [("p", .literal .null)] }
    config := { placement := { resourceTags := ["c"] } } }

theorem generate_pools_taggedPair :
    (∃ r, (generate {} taggedPair).result = .ok r ∧ Pooled {} taggedPair r) ∧
      ∃ e ps', (Invocation.emit {} unwritable).run.run {} = (.error e, ps') ∧ ps' = {} := by
  obtain ⟨r, hresult⟩ := taggedPair_generate
  obtain ⟨hpooled, hfails⟩ := generate_pools {} taggedPair
  have hrun : ∃ e ps', (Invocation.emit {} unwritable).run.run {} = (.error e, ps') :=
    ⟨_, _, rfl⟩
  obtain ⟨e, ps', hrun⟩ := hrun
  exact ⟨⟨r, hresult, hpooled r hresult⟩, e, ps', hrun, hfails _ _ _ e ps' hrun⟩

end Session

end StreamTopology
