import Dataflow.Proofs.DanglingInputs
import Dataflow.Proofs.Rebuilding

/- The builders take any list of nodes: names may come twice, and inputs may name nothing. What
   they make of it is fixed by the nodes that are kept. A node that was dropped counts for
   nothing, neither as a consumer nor in the search of the strict builder for an input that names
   no node.

   The recorded consumers are known as lists (`consumers_build`), and the strict builder and the
   checker find the same input (`tryBuild_eq_error`, `check_build_eq_error`). `build_outcome`
   puts all of it together, and adds that building again from the nodes changes nothing. -/

namespace Dataflow.Graph

variable {g : Graph} {ns : List Node} {x y : String}

/-! ## The nodes that are kept -/

theorem map_name_keepFirst (ns : List Node) :
    (keepFirst ns).map Node.name = (ns.map Node.name).eraseDups := by
  induction ns with
  | nil => rfl
  | cons n ns ih =>
    have hfilter : ((keepFirst ns).filter fun m => m.name != n.name).map Node.name =
        ((keepFirst ns).map Node.name).filter fun y => !y == n.name := by
      rw [List.filter_map]
      rfl
    rw [keepFirst, List.map_cons, hfilter, ih, filter_eraseDups, List.map_cons, List.eraseDups_cons]

theorem find?_keepFirst (ns : List Node) (x : String) :
    ((keepFirst ns).find? fun n => n.name == x) = ns.find? fun n => n.name == x := by
  induction ns with
  | nil => rfl
  | cons n ns ih =>
    rw [keepFirst, List.find?_cons, List.find?_cons]
    by_cases hn : n.name = x
    · simp [hn]
    · -- The nodes that are dropped for this one have its name, and so not the one that is looked for.
      have hother : ((keepFirst ns).filter fun m => m.name != n.name).find? (fun m => m.name == x) =
          (keepFirst ns).find? fun m => m.name == x := by
        rw [List.find?_filter]
        congr 1
        funext m
        by_cases hm : m.name = x
        · simp [hm, Ne.symm hn]
        · simp [hm]
      rw [hother, ih]

theorem names_build (ns : List Node) : (build ns).names = (ns.map Node.name).eraseDups := by
  rw [← map_name_nodes, build_nodes, map_name_keepFirst]

theorem node?_build_eq (ns : List Node) (x : String) :
    (build ns).node? x = ns.find? fun n => n.name == x := by
  rw [node?_eq_find?, build_nodes, find?_keepFirst]

theorem unlinked_keepFirst (ns : List Node) : unlinked (keepFirst ns) = unlinked ns := by
  refine ext ?_
  show bareEntries (keepFirst (keepFirst ns)) = bareEntries (keepFirst ns)
  rw [keepFirst_of_nodup (nodup_keepFirst ns)]

/-- Building again from the nodes of a graph that was built gives the same graph. -/
theorem build_nodes_build (ns : List Node) : build (build ns).nodes = build ns := by
  rw [build_nodes, build, unlinked_keepFirst]
  rfl

/-! ## Recorded consumers in order -/

theorem consumers_recordLinks {l : List String} (hy : g.has y = true)
    (hl : g.consumers y = l.eraseDups) (ls : List Link) : (g.recordLinks ls).consumers y =
      (l ++ (ls.filter fun k => k.producer == y).map Link.consumer).eraseDups := by
  induction ls generalizing g l with
  | nil => simpa [recordLinks] using hl
  | cons k ls ih =>
    show ((g.link k.producer k.consumer).recordLinks ls).consumers y = _
    rw [ih ((has_link g _ _ y).trans hy) (consumers_link_eq hy hl)]
    by_cases hk : y = k.producer
    · simp [hk]
    · simp [hk, Ne.symm hk]

theorem eraseDups_map_const {α : Type} (l : List α) (a : String) :
    (l.map fun _ => a).eraseDups = if l.isEmpty then [] else [a] := by
  cases l with
  | nil => rfl
  | cons b l => simp [List.eraseDups_cons]

theorem eraseDups_readers (hd : (ns.map Node.name).Nodup) (y : String) :
    (ns.flatMap fun n => (n.inputNodes.filter fun p => p == y).map fun _ => n.name).eraseDups =
      (ns.filter fun n => n.references y).map Node.name := by
  induction ns with
  | nil => rfl
  | cons n ns ih =>
    obtain ⟨hn, hd⟩ := List.nodup_cons.mp hd
    -- The names of later readers are other ones, so nothing is dropped from them.
    have hlater : ∀ c ∈ ns.flatMap (fun m => (m.inputNodes.filter fun p => p == y).map fun _ => m.name),
        c ∉ (n.inputNodes.filter fun p => p == y).map fun _ => n.name := by
      intro c hc hcn
      obtain ⟨m, hm, hc⟩ := List.mem_flatMap.mp hc
      obtain ⟨-, -, rfl⟩ := List.mem_map.mp hc
      obtain ⟨-, -, heq⟩ := List.mem_map.mp hcn
      exact hn (heq ▸ List.mem_map_of_mem hm)
    have hkept : ∀ first later : List String, (∀ c ∈ later, c ∉ first) →
        later.removeAll first = later := by
      intro first later hc
      exact List.filter_eq_self.mpr fun c hm => by simpa using hc c hm
    rw [List.flatMap_cons, List.eraseDups_append, hkept _ _ hlater, ih hd, eraseDups_map_const,
      List.filter_cons]
    by_cases hr : n.references y = true
    · have hne : n.inputNodes.filter (fun p => p == y) ≠ [] :=
        List.ne_nil_of_mem (List.mem_filter.mpr ⟨Node.references_iff.mp hr, by simp⟩)
      simp [hr, hne]
    · have hnil : n.inputNodes.filter (fun p => p == y) = [] := by
        refine List.filter_eq_nil_iff.mpr fun p hp heq => hr (Node.references_iff.mpr ?_)
        exact beq_iff_eq.mp heq ▸ hp
      simp [hr, hnil]

/-- The consumers of a node that is kept are the kept nodes that read it, in index order. -/
theorem consumers_build (hy : (build ns).has y = true) : (build ns).consumers y =
    ((build ns).nodes.filter fun n => n.references y).map Node.name := by
  rw [has_build] at hy
  have hd : ((unlinked ns).nodes.map Node.name).Nodup := by
    rw [map_name_nodes]
    exact (unlinked ns).nodup_names
  have hlinks : ((unlinked ns).links.filter fun k => k.producer == y).map Link.consumer =
      (unlinked ns).nodes.flatMap fun n =>
        (n.inputNodes.filter fun p => p == y).map fun _ => n.name := by
    rw [links, List.filter_flatMap, List.map_flatMap]
    refine List.flatMap_congr fun n _ => ?_
    rw [List.filter_map, List.map_map]
    rfl
  rw [build, consumers_recordLinks (l := []) hy (consumers_unlinked ns y), hlinks, List.nil_append,
    eraseDups_readers hd, recordLinks_nodes]

/-! ## Inputs that name no node -/

/-- The first input, in index order and then input order, that names no node: it is one of `consumer`,
and names `missing`. -/
def FirstDangling (g : Graph) (consumer missing : String) : Prop :=
  ∃ before n after, g.nodes = before ++ n :: after ∧ n.name = consumer ∧
    (∀ m ∈ before, ∀ p ∈ m.inputNodes, g.has p = true) ∧
    ∃ earlier later, n.inputNodes = earlier ++ missing :: later ∧
      (∀ p ∈ earlier, g.has p = true) ∧ ¬g.has missing = true

def dangling? (g : Graph) : Option Link := g.links.find? fun l => !g.has l.producer

theorem firstDangling_of_dangling? {l : Link} (hl : g.dangling? = some l) :
    g.FirstDangling l.consumer l.producer := by
  rw [dangling?, links, List.find?_flatMap] at hl
  obtain ⟨before, n, after, hnodes, hn, hbefore⟩ := List.findSome?_eq_some_iff.mp hl
  rw [List.find?_map, Option.map_eq_some_iff] at hn
  obtain ⟨missing, hn, rfl⟩ := hn
  obtain ⟨hm, earlier, later, hinputs, hearlier⟩ := List.find?_eq_some_iff_append.mp hn
  refine ⟨before, n, after, hnodes, rfl, fun m hmb p hp => ?_, earlier, later, hinputs, ?_, ?_⟩
  · have hnone := hbefore m hmb
    rw [List.find?_map, Option.map_eq_none_iff, List.find?_eq_none] at hnone
    simpa using hnone p hp
  · simpa using hearlier
  · simpa using hm

theorem tryBuild_eq_error {e : Error} : tryBuild ns = .error e ↔
    ∃ l, (build ns).dangling? = some l ∧ e = .danglingReference l.consumer l.producer := by
  have hlinks : (build ns).dangling? =
      (unlinked ns).links.find? fun l => !(unlinked ns).has l.producer := by
    simp only [dangling?, has_build]
    rw [links, build, recordLinks_nodes]
    rfl
  rw [hlinks]
  cases hf : (unlinked ns).links.find? fun l => !(unlinked ns).has l.producer with
  | none => simp [tryBuild, hf]
  | some l => simp [tryBuild, hf, eq_comm]

theorem check_eq_error {e : Error} : g.check = .error e ↔ g.faults.head? = some e := by
  unfold check
  cases g.faults <;> simp

theorem head?_faults (hj : g.PresentInputsRecorded) (hr : g.ConsumersReferring) :
    g.faults.head? = g.dangling?.map fun l => .danglingReference l.consumer l.producer := by
  have hfaults : g.faults = (g.links.filter fun l => !g.has l.producer).map
      fun l => .danglingReference l.consumer l.producer := by
    rw [faults_of_recorded hj hr, links, List.filter_flatMap, List.map_flatMap]
    refine List.flatMap_congr fun n _ => ?_
    rw [List.filter_map, List.map_map]
    rfl
  rw [hfaults, List.head?_map, List.head?_filter, dangling?]

theorem check_build_eq_ok : (build ns).check = .ok () ↔ (build ns).Closed :=
  check_of_recorded (build_presentInputsRecorded ns) (build_consumersReferring ns)

/-- The checker finds what the strict builder refuses. -/
theorem check_build_eq_error {e : Error} :
    (build ns).check = .error e ↔ tryBuild ns = .error e := by
  rw [check_eq_error, head?_faults (build_presentInputsRecorded ns) (build_consumersReferring ns),
    Option.map_eq_some_iff, tryBuild_eq_error]
  simp only [eq_comm]

/-! ## Building -/

/-- What a graph is to the nodes it was built from. -/
structure BuiltFrom (ns : List Node) (g : Graph) : Prop where
  /-- Every name once, in the order in which they come first. -/
  names : g.names = (ns.map Node.name).eraseDups
  /-- Under each name, the first node that has it. -/
  node : ∀ x, g.node? x = ns.find? fun n => n.name == x
  /-- With each node, the names of the nodes that read it, in index order and each once. -/
  consumers : ∀ y, g.has y = true →
    g.consumers y = (g.nodes.filter fun n => n.references y).map Node.name ∧ (g.consumers y).Nodup

theorem build_builtFrom (ns : List Node) : BuiltFrom ns (build ns) where
  names := names_build ns
  node := node?_build_eq ns
  consumers y hy := ⟨consumers_build hy, (build_consumersDistinct ns).nodup_consumers y⟩

/-- What the lenient builder makes of a list of nodes, and how the strict builder compares: building
again from its nodes gives the same graph; the strict builder gives that graph if the checker accepts
it, and otherwise refuses with what the checker reports, which is the first input that names no
node. -/
theorem build_outcome (ns : List Node) :
    BuiltFrom ns (build ns) ∧ build (build ns).nodes = build ns ∧
    ((∃ g, tryBuild ns = .ok g) ↔ (build ns).check = .ok ()) ∧
    (∀ g, tryBuild ns = .ok g → g = build ns) ∧
    ∀ e, tryBuild ns = .error e → (build ns).check = .error e ∧
      ∃ consumer missing, e = .danglingReference consumer missing ∧
        (build ns).FirstDangling consumer missing := by
  refine ⟨build_builtFrom ns, build_nodes_build ns, ?_, ?_, ?_⟩
  · rw [check_build_eq_ok]
    refine ⟨?_, ?_⟩
    · intro hex
      obtain ⟨g, hg⟩ := hex
      exact (tryBuild_eq_ok.mp hg).1
    · exact fun hc => ⟨build ns, tryBuild_eq_ok.mpr ⟨hc, rfl⟩⟩
  · exact fun g hg => (tryBuild_eq_ok.mp hg).2
  · intro e he
    obtain ⟨l, hl, rfl⟩ := tryBuild_eq_error.mp he
    exact ⟨check_build_eq_error.mpr he, _, _, rfl, firstDangling_of_dangling? hl⟩

/-- A second node of a name counts for nothing: it consumes nothing, and what it names is not missed. -/
example : ∃ g, tryBuild [.make "Add" "sum" ["left:1", "left", "^right"], .make "Const" "right" [],
    .make "Relu" "sum" ["ghost", "right"], .make "Relu" "left" ["sum:2"]] = .ok g ∧
      g.consumers "left" = ["sum"] ∧ g.consumers "right" = ["sum"] ∧ g.consumers "sum" = ["left"] :=
  ⟨_, rfl, by decide, by decide, by decide⟩

end Dataflow.Graph
