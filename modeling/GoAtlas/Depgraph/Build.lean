import GoAtlas.Lib.GreedyOrder
import Mathlib.Data.List.Sort
import Mathlib.Logic.Function.Basic

/-!
# Ordering items by their dependencies

`Build` enters the items in a graph keyed by name, adds an edge for each declared dependency that is
present and sorts the graph with Kahn's algorithm: a queue of the nodes without incoming edges, kept
in the order of registration.
-/

namespace GoAtlas.Depgraph

open Lib

variable {β : Type} {deg : String → Int} {zero : List String}

/-- An item with what it declares. One that implements neither declarer interface declares
nothing. -/
structure Item (β : Type) where
  name : String
  requiredDependencies : List String
  dependencies : List String
  value : β

inductive Error where
  | emptyName (index : Nat)
  | duplicateName (name : String)
  | missingDependency (item dep : String)
  | cyclicDependency (involving : List String)
  deriving DecidableEq

/-- The nodes stand in the order of their registration: `order` is the position of a name. -/
structure Graph (β : Type) where
  nodes : List (Item β)
  edges : String → List String
  inDegree : String → Int

namespace Graph

def new : Graph β := ⟨[], fun _ => [], fun _ => 0⟩

def hasNode (g : Graph β) (name : String) : Bool := g.nodes.any (·.name == name)

def order (g : Graph β) (name : String) : Nat := g.nodes.findIdx (·.name == name)

def node (g : Graph β) (name : String) : Option (Item β) := g.nodes.find? (·.name == name)

def addNode (g : Graph β) (item : Item β) : Graph β :=
  if g.hasNode item.name then g
  else { g with nodes := g.nodes ++ [item], inDegree := Function.update g.inDegree item.name 0 }

def addEdge (g : Graph β) (dep dependent : String) : Graph β :=
  { g with
    edges := Function.update g.edges dep (g.edges dep ++ [dependent])
    inDegree := Function.update g.inDegree dependent (g.inDegree dependent + 1) }

structure Sorting (β : Type) where
  queue : List String
  inDegree : String → Int
  result : List (Item β)

def sortQueue (g : Graph β) (queue : List String) : List String :=
  queue.insertionSort fun a b => g.order a ≤ g.order b

/-- One dependent of the node taken from the queue; the second component is `newZero`. -/
def release (d : (String → Int) × List String) (dep : String) : (String → Int) × List String :=
  (Function.update d.1 dep (d.1 dep - 1), if d.1 dep - 1 = 0 then d.2 ++ [dep] else d.2)

def visit (g : Graph β) (s : Sorting β) (name : String) : Sorting β :=
  let d := (g.edges name).foldl release (s.inDegree, [])
  { queue := if d.2.isEmpty then s.queue.tail else g.sortQueue (s.queue.tail ++ d.2)
    inDegree := d.1
    result := s.result ++ (g.node name).toList }

def loop (g : Graph β) : Nat → Sorting β → Sorting β
  | 0, s => s
  | fuel + 1, s => s.queue.head?.elim s fun name => g.loop fuel (g.visit s name)

/-- Each node leaves the queue once, so as many turns as there are nodes are enough. The two walks
are the orders in which the map of nodes is ranged over, first for the queue and then for the
error. -/
def topologicalSort (g : Graph β) (walk walk' : List String) : Except Error (List (Item β)) :=
  let s := g.loop g.nodes.length ⟨g.sortQueue (walk.filter (g.inDegree · = 0)), g.inDegree, []⟩
  if s.result.length ≠ g.nodes.length then
    .error (.cyclicDependency (walk'.filter (0 < s.inDegree ·)))
  else .ok s.result

def addNodes (g : Graph β) (items : List (Item β)) (start : Nat) : Except Error (Graph β) :=
  (items.zipIdx start).foldlM (fun g p =>
    if p.1.name = "" then .error (.emptyName p.2)
    else if g.hasNode p.1.name then .error (.duplicateName p.1.name)
    else .ok (g.addNode p.1)) g

def addRequired (g : Graph β) (name : String) (deps : List String) : Except Error (Graph β) :=
  deps.foldlM (fun g dep =>
    if g.hasNode dep then .ok (g.addEdge dep name) else .error (.missingDependency name dep)) g

/-- Those in `added`, the item's required dependencies, have their edge. -/
def addOptional (g : Graph β) (name : String) (added deps : List String) : Graph β :=
  deps.foldl (fun g dep =>
    if added.contains dep then g else if g.hasNode dep then g.addEdge dep name else g) g

def addEdges (g : Graph β) (items : List (Item β)) : Except Error (Graph β) :=
  items.foldlM (fun g item =>
    (g.addRequired item.name item.requiredDependencies).map
      (·.addOptional item.name item.requiredDependencies item.dependencies)) g

end Graph

def build (walk walk' : List String) (items : List (Item β)) : Except Error (List (Item β)) :=
  if items.isEmpty then .ok items
  else ((Graph.new.addNodes items 0).bind (·.addEdges items)).bind (·.topologicalSort walk walk')

def NeededBy (x y : Item β) : Prop := x.name ∈ y.requiredDependencies ∨ x.name ∈ y.dependencies

def registered (items : List (Item β)) (x : Item β) : Nat := items.findIdx (·.name == x.name)

/-! ## The graph of the items -/

structure Graph.Wired (g : Graph β) (es : List (String × String)) : Prop where
  edges : ∀ a, g.edges a = (es.filter (·.1 = a)).map (·.2)
  inDegree : ∀ v, g.inDegree v = es.countP (·.2 = v)

theorem Graph.hasNode_iff {g : Graph β} {n : String} :
    g.hasNode n = true ↔ n ∈ g.nodes.map Item.name := by
  simp [Graph.hasNode]

theorem Graph.Wired.addEdge {g : Graph β} {es : List (String × String)} (h : g.Wired es)
    (dep dependent : String) :
    (g.addEdge dep dependent).Wired (es ++ [(dep, dependent)]) := by
  constructor
  · intro a
    by_cases heq : a = dep
    · subst heq
      simp [Graph.addEdge, h.edges, List.filter_append]
    · simp [Graph.addEdge, h.edges, List.filter_append, Function.update_of_ne heq, Ne.symm heq]
  · intro v
    by_cases heq : v = dependent
    · subst heq
      simp [Graph.addEdge, h.inDegree, List.countP_append]
    · simp [Graph.addEdge, h.inDegree, List.countP_append, Function.update_of_ne heq, Ne.symm heq]

theorem Graph.addNodes_eq (items : List (Item β)) :
    ∀ (g : Graph β) (start : Nat), g.inDegree = (fun _ => 0) →
    (∀ x ∈ items, x.name ≠ "") → (items.map Item.name).Nodup →
    (∀ x ∈ items, x.name ∉ g.nodes.map Item.name) →
    g.addNodes items start = .ok { g with nodes := g.nodes ++ items } := by
  induction items with
  | nil =>
    intro g start _ _ _ _
    simp [Graph.addNodes, pure, Except.pure]
  | cons x items ih =>
    intro g start hzero hempty hnodup hnew
    have hno : g.hasNode x.name = false := by
      rw [Bool.eq_false_iff, ne_eq, Graph.hasNode_iff]
      exact hnew x List.mem_cons_self
    have hadd : g.addNode x = { g with nodes := g.nodes ++ [x] } := by
      rw [Graph.addNode, hno, hzero]
      simp
    have hstep : g.addNodes (x :: items) start = (g.addNode x).addNodes items (start + 1) := by
      simp [Graph.addNodes, hno, hempty x List.mem_cons_self, bind, Except.bind]
    rw [List.map_cons, List.nodup_cons] at hnodup
    rw [hstep, hadd, ih { g with nodes := g.nodes ++ [x] } (start + 1) hzero
      (fun y hy => hempty y (List.mem_cons_of_mem _ hy)) hnodup.2]
    · simp
    · intro y hy
      rw [List.map_append, List.mem_append, not_or]
      refine ⟨hnew y (List.mem_cons_of_mem _ hy), fun hmem => hnodup.1 ?_⟩
      rw [List.map_cons, List.map_nil, List.mem_singleton] at hmem
      exact hmem ▸ List.mem_map_of_mem hy

theorem Graph.addRequired_ok (name : String) (deps : List String) :
    ∀ (g : Graph β) (es : List (String × String)),
    g.Wired es → (∀ dep ∈ deps, dep ∈ g.nodes.map Item.name) →
    ∃ g', g.addRequired name deps = .ok g' ∧ g'.nodes = g.nodes ∧
      g'.Wired (es ++ deps.map (·, name)) := by
  induction deps with
  | nil =>
    intro g es h _
    exact ⟨g, rfl, rfl, by simpa using h⟩
  | cons dep deps ih =>
    intro g es h hdeps
    obtain ⟨g', heq, hnodes, hwired⟩ := ih (g.addEdge dep name) _ (h.addEdge dep name)
      fun d hd => hdeps d (List.mem_cons_of_mem _ hd)
    refine ⟨g', ?_, hnodes, by simpa using hwired⟩
    rw [← heq]
    simp [Graph.addRequired, Graph.hasNode_iff.mpr (hdeps dep List.mem_cons_self),
      bind, Except.bind]

theorem Graph.addRequired_missing (name : String) (deps : List String) : ∀ g : Graph β,
    (∃ dep ∈ deps, dep ∉ g.nodes.map Item.name) →
    ∃ dep ∈ deps, dep ∉ g.nodes.map Item.name ∧ g.addRequired name deps =
      .error (.missingDependency name dep) := by
  induction deps with
  | nil => simp
  | cons dep deps ih =>
    intro g hmissing
    by_cases hdep : dep ∈ g.nodes.map Item.name
    · obtain ⟨d, hd, hnot, heq⟩ := ih (g.addEdge dep name) (by
        obtain ⟨d, hd, hnot⟩ := hmissing
        rcases List.mem_cons.mp hd with rfl | hd
        · exact absurd hdep hnot
        · exact ⟨d, hd, hnot⟩)
      refine ⟨d, List.mem_cons_of_mem _ hd, hnot, ?_⟩
      rw [← heq]
      simp [Graph.addRequired, Graph.hasNode_iff.mpr hdep, bind, Except.bind]
    · refine ⟨dep, List.mem_cons_self, hdep, ?_⟩
      have hno : g.hasNode dep = false := by
        rw [Bool.eq_false_iff, ne_eq, Graph.hasNode_iff]
        exact hdep
      simp [Graph.addRequired, hno, bind, Except.bind]

theorem Graph.addOptional_wired (name : String) (added deps : List String) :
    ∀ (g : Graph β) (es : List (String × String)), g.Wired es →
    (g.addOptional name added deps).nodes = g.nodes ∧
    (g.addOptional name added deps).Wired
      (es ++ (deps.filter fun dep => !added.contains dep && g.hasNode dep).map (·, name)) := by
  induction deps with
  | nil =>
    intro g es h
    exact ⟨rfl, by simpa [Graph.addOptional] using h⟩
  | cons dep deps ih =>
    intro g es h
    by_cases hadd : (!added.contains dep && g.hasNode dep) = true
    · obtain ⟨hnodes, hwired⟩ := ih (g.addEdge dep name) _ (h.addEdge dep name)
      have hstep : g.addOptional name added (dep :: deps) =
          (g.addEdge dep name).addOptional name added deps := by
        simp only [Bool.and_eq_true, Bool.not_eq_true'] at hadd
        simp only [Graph.addOptional, List.foldl_cons, hadd.1, hadd.2, Bool.false_eq_true,
          if_false, if_true]
      have hsame : (g.addEdge dep name).hasNode = g.hasNode := rfl
      rw [hstep, List.filter_cons, if_pos hadd]
      exact ⟨hnodes, by simpa [hsame] using hwired⟩
    · have hstep : g.addOptional name added (dep :: deps) = g.addOptional name added deps := by
        simp only [Bool.and_eq_true, Bool.not_eq_true', not_and, Bool.not_eq_true] at hadd
        by_cases hc : added.contains dep = true
        · simp only [Graph.addOptional, List.foldl_cons, hc, if_true]
        · simp only [Graph.addOptional, List.foldl_cons, hc, hadd (Bool.eq_false_iff.mpr hc),
            Bool.false_eq_true, if_false]
      rw [hstep, List.filter_cons, if_neg hadd]
      exact ih g es h

def Item.calls (names : List String) (x : Item β) : List (String × String) :=
  x.requiredDependencies.map (·, x.name) ++
    (x.dependencies.filter fun dep => !x.requiredDependencies.contains dep &&
      names.contains dep).map (·, x.name)

theorem Graph.addEdges_ok (items : List (Item β)) :
    ∀ (g : Graph β) (es : List (String × String)), g.Wired es →
    (∀ x ∈ items, ∀ dep ∈ x.requiredDependencies, dep ∈ g.nodes.map Item.name) →
    ∃ g', g.addEdges items = .ok g' ∧ g'.nodes = g.nodes ∧
      g'.Wired (es ++ items.flatMap (Item.calls (g.nodes.map Item.name))) := by
  induction items with
  | nil =>
    intro g es h _
    exact ⟨g, rfl, rfl, by simpa using h⟩
  | cons x items ih =>
    intro g es h hdeps
    obtain ⟨g₁, hreq, hnodes₁, hwired₁⟩ := g.addRequired_ok x.name x.requiredDependencies es h
      (hdeps x List.mem_cons_self)
    obtain ⟨hnodes₂, hwired₂⟩ :=
      g₁.addOptional_wired x.name x.requiredDependencies x.dependencies _ hwired₁
    rw [hnodes₁] at hnodes₂
    obtain ⟨g', heq, hnodes, hwired⟩ := ih _ _ hwired₂ fun y hy dep hd => by
      rw [hnodes₂]
      exact hdeps y (List.mem_cons_of_mem _ hy) dep hd
    refine ⟨g', ?_, hnodes.trans hnodes₂, ?_⟩
    · rw [← heq]
      simp [Graph.addEdges, hreq, Except.map, bind, Except.bind]
    · have hsame : ∀ dep, g₁.hasNode dep = (g.nodes.map Item.name).contains dep := fun dep => by
        rw [Bool.eq_iff_iff, Graph.hasNode_iff, hnodes₁, List.contains_iff_mem]
      rw [hnodes₂] at hwired
      simp only [hsame] at hwired
      simpa only [List.flatMap_cons, Item.calls, List.append_assoc] using hwired

theorem Graph.addEdges_missing (items : List (Item β)) :
    ∀ (g : Graph β) (es : List (String × String)), g.Wired es →
    (∃ x ∈ items, ∃ dep ∈ x.requiredDependencies, dep ∉ g.nodes.map Item.name) →
    ∃ x ∈ items, ∃ dep ∈ x.requiredDependencies, dep ∉ g.nodes.map Item.name ∧
      g.addEdges items = .error (.missingDependency x.name dep) := by
  induction items with
  | nil => simp
  | cons x items ih =>
    intro g es h hmissing
    by_cases hx : ∃ dep ∈ x.requiredDependencies, dep ∉ g.nodes.map Item.name
    · obtain ⟨dep, hd, hnot, heq⟩ := g.addRequired_missing x.name x.requiredDependencies hx
      refine ⟨x, List.mem_cons_self, dep, hd, hnot, ?_⟩
      simp [Graph.addEdges, heq, Except.map, bind, Except.bind]
    · obtain ⟨g₁, hreq, hnodes₁, hwired₁⟩ := g.addRequired_ok x.name x.requiredDependencies es h
        fun dep hd => by_contra fun hnot => hx ⟨dep, hd, hnot⟩
      obtain ⟨hnodes₂, hwired₂⟩ :=
        g₁.addOptional_wired x.name x.requiredDependencies x.dependencies _ hwired₁
      rw [hnodes₁] at hnodes₂
      obtain ⟨y, hy, dep, hd, hnot, heq⟩ := ih _ _ hwired₂ (by
        obtain ⟨y, hy, hdep⟩ := hmissing
        rw [hnodes₂]
        rcases List.mem_cons.mp hy with rfl | hy
        · exact absurd hdep hx
        · exact ⟨y, hy, hdep⟩)
      rw [hnodes₂] at hnot
      refine ⟨y, List.mem_cons_of_mem _ hy, dep, hd, hnot, ?_⟩
      rw [← heq]
      simp [Graph.addEdges, hreq, Except.map, bind, Except.bind]

/-! ## The sort

The loop is followed with the edges that are left: those from a node that is not in the result. -/

def pending (es : List (String × String)) (done : List (Item β)) (v : String) : Nat :=
  es.countP fun e => e.2 = v ∧ e.1 ∉ done.map Item.name

theorem pending_cons (es : List (String × String)) {done : List (Item β)} {x : Item β}
    (hx : x.name ∉ done.map Item.name) (v : String) :
    pending es done v =
      pending es (x :: done) v + ((es.filter (·.1 = x.name)).map (·.2)).count v := by
  induction es with
  | nil => rfl
  | cons e es ih =>
    simp only [pending, List.countP_cons] at ih ⊢
    rw [ih, List.filter_cons]
    by_cases hv : e.2 = v <;> by_cases hn : e.1 = x.name
    · simp [hv, hn, hx]
      omega
    · simp [hv, hn]
      omega
    · simp [hv, hn]
    · simp [hv, hn]

theorem mem_release {d v : String} :
    v ∈ (Graph.release (deg, zero) d).2 ↔ v ∈ zero ∨ v = d ∧ deg d = 1 := by
  by_cases h1 : deg d - 1 = 0
  · simp [Graph.release, show deg d = 1 by omega]
  · simp [Graph.release, h1, show deg d ≠ 1 by omega]

theorem nodup_release {d : String} (hnodup : zero.Nodup) (hd : d ∉ zero) :
    (Graph.release (deg, zero) d).2.Nodup := by
  by_cases h1 : deg d - 1 = 0
  · simpa [Graph.release, h1] using List.nodup_append.mpr
      ⟨hnodup, List.nodup_singleton d, fun a ha b hb => by
        rw [List.mem_singleton] at hb
        exact fun heq => hd (hb ▸ heq ▸ ha)⟩
  · simpa [Graph.release, h1] using hnodup

theorem degree_release_self {d : String} :
    (Graph.release (deg, zero) d).1 d = deg d - 1 := by
  simp [Graph.release]

theorem degree_release_of_ne {d v : String} (hv : v ≠ d) :
    (Graph.release (deg, zero) d).1 v = deg v := by
  simp [Graph.release, Function.update_of_ne hv]

/-- The dependents of one node, with repetitions: each degree falls by its number of edges, and
those that reach zero are collected once. -/
theorem foldl_release (ds : List String) : ∀ (deg : String → Int) (zero : List String),
    (∀ v, (ds.count v : Int) ≤ deg v ∨ v ∉ ds) → zero.Nodup → (∀ v ∈ zero, v ∉ ds) →
    (∀ v, (ds.foldl Graph.release (deg, zero)).1 v = deg v - ds.count v) ∧
    (ds.foldl Graph.release (deg, zero)).2.Nodup ∧
    ∀ v, v ∈ (ds.foldl Graph.release (deg, zero)).2 ↔ v ∈ zero ∨ v ∈ ds ∧ deg v = ds.count v := by
  induction ds with
  | nil =>
    intro deg zero _ hnodup _
    simpa using hnodup
  | cons d ds ih =>
    intro deg zero hle hnodup hzero
    have hd : (ds.count d : Int) + 1 ≤ deg d := by
      have := (hle d).resolve_right (by simp)
      simpa using this
    have hdzero : d ∉ zero := fun hmem => hzero d hmem List.mem_cons_self
    have hle' : ∀ v, (ds.count v : Int) ≤ (Graph.release (deg, zero) d).1 v ∨ v ∉ ds := by
      intro v
      by_cases hv : v = d
      · subst hv
        rw [degree_release_self]
        exact .inl (by omega)
      · rw [degree_release_of_ne hv]
        simpa [hv, Ne.symm hv] using hle v
    have hzero' : ∀ v ∈ (Graph.release (deg, zero) d).2, v ∉ ds := by
      intro v hv hvds
      rcases mem_release.mp hv with hv | ⟨rfl, h1⟩
      · exact hzero v hv (List.mem_cons_of_mem _ hvds)
      · have := List.count_pos_iff.mpr hvds
        omega
    obtain ⟨hdeg, hnd, hmem⟩ := ih _ _ hle' (nodup_release hnodup hdzero) hzero'
    refine ⟨fun v => ?_, hnd, fun v => ?_⟩
    · rw [List.foldl_cons, hdeg]
      by_cases hv : v = d
      · subst hv
        rw [degree_release_self, List.count_cons_self]
        omega
      · rw [degree_release_of_ne hv, List.count_cons_of_ne (Ne.symm hv)]
    · rw [List.foldl_cons, hmem, mem_release]
      by_cases hv : v = d
      · subst hv
        simp only [degree_release_self, List.count_cons_self, List.mem_cons, true_or, true_and]
        constructor
        · rintro ((hz | h1) | ⟨_, heq⟩)
          · exact absurd hz hdzero
          · exact .inr (by omega)
          · exact .inr (by omega)
        · rintro (hz | heq)
          · exact absurd hz hdzero
          · by_cases hds : v ∈ ds
            · exact .inr ⟨hds, by omega⟩
            · rw [List.count_eq_zero_of_not_mem hds] at heq
              exact .inl (.inr (by omega))
      · simp [degree_release_of_ne hv, hv, Ne.symm hv]

section Loop

variable {g : Graph β} {es : List (String × String)} {done : List (Item β)} {s : Graph.Sorting β}
    {x y : Item β} {q : List String}

/-- The graph of distinct names whose edges are the declared dependencies. -/
structure Graph.Declared (g : Graph β) (es : List (String × String)) : Prop where
  nodup : (g.nodes.map Item.name).Nodup
  wired : g.Wired es
  mem : ∀ a b, (a, b) ∈ es ↔ ∃ x ∈ g.nodes, ∃ y ∈ g.nodes, x.name = a ∧ y.name = b ∧ NeededBy x y

theorem Graph.Declared.name_inj (h : g.Declared es) (hx : x ∈ g.nodes) (hy : y ∈ g.nodes)
    (heq : x.name = y.name) :
    x = y :=
  List.inj_on_of_nodup_map h.nodup hx hy heq

theorem Graph.Declared.node_eq (h : g.Declared es) (hx : x ∈ g.nodes) : g.node x.name = some x := by
  have hsome : (g.node x.name).isSome = true := by
    rw [Graph.node, List.find?_isSome]
    exact ⟨x, hx, beq_self_eq_true x.name⟩
  obtain ⟨y, hy⟩ := Option.isSome_iff_exists.mp hsome
  rw [Graph.node] at hy
  have hname : y.name = x.name := by simpa using List.find?_some hy
  rw [Graph.node, hy, h.name_inj (List.mem_of_find?_eq_some hy) hx hname]

theorem Graph.order_inj {a b : String} (ha : a ∈ g.nodes.map Item.name)
    (heq : g.order a = g.order b) : a = b := by
  obtain ⟨x, hx, rfl⟩ := List.mem_map.mp ha
  have hlt : g.nodes.findIdx (·.name == x.name) < g.nodes.length :=
    List.findIdx_lt_length_of_exists ⟨x, hx, beq_self_eq_true x.name⟩
  have hidx : g.nodes.findIdx (·.name == x.name) = g.nodes.findIdx (·.name == b) := heq
  have hfirst := List.findIdx_getElem (w := hlt)
  have hsecond := List.findIdx_getElem (w := hidx ▸ hlt)
  simp only [beq_iff_eq] at hfirst hsecond
  rw [← hfirst, ← hsecond]
  simp only [hidx]

theorem Graph.Declared.mem_done_iff (h : g.Declared es) (hdone : ∀ y ∈ done, y ∈ g.nodes)
    (hx : x ∈ g.nodes) :
    x.name ∈ done.map Item.name ↔ x ∈ done := by
  refine ⟨fun hmem => ?_, fun hmem => List.mem_map_of_mem hmem⟩
  obtain ⟨y, hy, heq⟩ := List.mem_map.mp hmem
  exact h.name_inj (hdone y hy) hx heq ▸ hy

theorem Graph.Declared.pending_eq_zero (h : g.Declared es) (hdone : ∀ y ∈ done, y ∈ g.nodes)
    (hx : x ∈ g.nodes) :
    pending es done x.name = 0 ↔ ∀ y ∈ g.nodes, NeededBy y x → y ∈ done := by
  rw [pending, List.countP_eq_zero]
  constructor
  · intro hnone y hy hneeded
    by_contra hnot
    refine hnone (y.name, x.name) ((h.mem _ _).mpr ⟨y, hy, x, hx, rfl, rfl, hneeded⟩) ?_
    rw [decide_eq_true_eq]
    exact ⟨rfl, fun hmem => hnot ((h.mem_done_iff hdone hy).mp hmem)⟩
  · rintro hall ⟨a, b⟩ he
    obtain ⟨y, hy, x', hx', rfl, rfl, hneeded⟩ := (h.mem a b).mp he
    rw [decide_eq_true_eq]
    rintro ⟨heq, hnot⟩
    obtain rfl := h.name_inj hx' hx heq
    exact hnot (List.mem_map_of_mem (hall y hy hneeded))

theorem Graph.Declared.ready_iff (h : g.Declared es) (hdone : ∀ y ∈ done, y ∈ g.nodes) :
    Ready g.nodes NeededBy done x ↔ x ∈ g.nodes ∧ x ∉ done ∧ pending es done x.name = 0 := by
  constructor
  · intro hr
    exact ⟨hr.mem, hr.notMem, (h.pending_eq_zero hdone hr.mem).mpr hr.before⟩
  · rintro ⟨hx, hnot, hzero⟩
    exact ⟨hx, hnot, (h.pending_eq_zero hdone hx).mp hzero⟩

theorem Graph.sortQueue_sorted (hnames : ∀ n ∈ q, n ∈ g.nodes.map Item.name) (hnodup : q.Nodup) :
    (g.sortQueue q).Pairwise fun a b => g.order a < g.order b := by
  have hperm : (g.sortQueue q).Perm q := List.perm_insertionSort _ q
  have : Std.Total fun a b => g.order a ≤ g.order b := ⟨fun a b => Nat.le_total _ _⟩
  have : IsTrans String fun a b => g.order a ≤ g.order b := ⟨fun _ _ _ => Nat.le_trans⟩
  have hle : (g.sortQueue q).Pairwise fun a b => g.order a ≤ g.order b :=
    List.pairwise_insertionSort _ q
  refine (hle.and (hperm.nodup_iff.mpr hnodup)).imp_of_mem fun ha _ hab => ?_
  refine Nat.lt_of_le_of_ne hab.1 fun heq => hab.2 ?_
  exact Graph.order_inj (hnames _ (hperm.mem_iff.mp ha)) heq

/-- The loop with `done` in the result, latest first. -/
structure Graph.Sorting.Inv (g : Graph β) (es : List (String × String)) (done : List (Item β))
    (s : Graph.Sorting β) :
    Prop where
  result : s.result = done.reverse
  nodup : done.Nodup
  closed : ∀ y ∈ done, y ∈ g.nodes ∧ pending es done y.name = 0
  degree : ∀ v, s.inDegree v = pending es done v
  sorted : s.queue.Pairwise fun a b => g.order a < g.order b
  queue : ∀ n, n ∈ s.queue ↔ ∃ x, Ready g.nodes NeededBy done x ∧ x.name = n

theorem Graph.Sorting.Inv.nodes (hi : s.Inv g es done) : ∀ y ∈ done, y ∈ g.nodes :=
  fun y hy => (hi.closed y hy).1

theorem Graph.Sorting.Inv.front {n : String} (hi : s.Inv g es done) (hq : s.queue = n :: q) :
    ∃ x, x.name = n ∧ Ready g.nodes NeededBy done x ∧
      ∀ u, Ready g.nodes NeededBy done u → g.order x.name ≤ g.order u.name := by
  obtain ⟨x, hx, rfl⟩ := (hi.queue n).mp (hq ▸ List.mem_cons_self)
  refine ⟨x, rfl, hx, fun u hu => ?_⟩
  have hmem : u.name ∈ s.queue := (hi.queue u.name).mpr ⟨u, hu, rfl⟩
  have hsorted := hi.sorted
  rw [hq] at hmem hsorted
  rcases List.mem_cons.mp hmem with heq | hmem
  · rw [heq]
  · exact Nat.le_of_lt ((List.pairwise_cons.mp hsorted).1 _ hmem)

variable (hg : g.Declared es)
include hg

section

variable (hi : s.Inv g es done) (hx : Ready g.nodes NeededBy done x)
include hi hx

theorem Graph.Sorting.Inv.pending_edges (v : String) :
    pending es done v = pending es (x :: done) v + (g.edges x.name).count v := by
  rw [hg.wired.edges x.name]
  exact pending_cons es (fun hmem => hx.notMem ((hg.mem_done_iff hi.nodes hx.mem).mp hmem)) v

/-- The dependents of a ready node: the degrees, and `newZero`, as they are with the node done. -/
theorem Graph.Sorting.Inv.release :
    (∀ v, ((g.edges x.name).foldl Graph.release (s.inDegree, [])).1 v = pending es (x :: done) v) ∧
    ((g.edges x.name).foldl Graph.release (s.inDegree, [])).2.Nodup ∧
    ∀ v, v ∈ ((g.edges x.name).foldl Graph.release (s.inDegree, [])).2 ↔
      v ∈ g.edges x.name ∧ pending es (x :: done) v = 0 := by
  have hpend := hi.pending_edges hg hx
  obtain ⟨hdeg, hnodup, hzero⟩ := foldl_release (g.edges x.name) s.inDegree []
    (fun v => .inl (by rw [hi.degree]; have := hpend v; omega)) List.nodup_nil (by simp)
  refine ⟨fun v => ?_, hnodup, fun v => ?_⟩
  · rw [hdeg, hi.degree]
    have := hpend v
    omega
  · rw [hzero, hi.degree]
    have := hpend v
    refine ⟨fun h => ?_, fun h => .inr ⟨h.1, by omega⟩⟩
    obtain ⟨hmem, hcount⟩ := h.resolve_left (by simp)
    exact ⟨hmem, by omega⟩

theorem Graph.Sorting.Inv.pending_pos {v : String} (hv : v ∈ g.edges x.name) :
    0 < pending es done v := by
  have := hi.pending_edges hg hx v
  have := List.count_pos_iff.mpr hv
  omega

/-- With a ready node done the others that were ready still are, and those of its dependents become
so that wait for nothing else. -/
theorem Graph.Sorting.Inv.ready_cons :
    Ready g.nodes NeededBy (x :: done) y ↔
      (Ready g.nodes NeededBy done y ∧ y ≠ x) ∨
        (y ∈ g.nodes ∧ y.name ∈ g.edges x.name ∧ pending es (x :: done) y.name = 0) := by
  have hnodes : ∀ z ∈ x :: done, z ∈ g.nodes := List.forall_mem_cons.mpr ⟨hx.mem, hi.nodes⟩
  have hpend := hi.pending_edges hg hx y.name
  rw [hg.ready_iff hnodes, hg.ready_iff hi.nodes, List.mem_cons, not_or]
  constructor
  · rintro ⟨hy, ⟨hne, hnot⟩, hzero⟩
    by_cases hedge : y.name ∈ g.edges x.name
    · exact .inr ⟨hy, hedge, hzero⟩
    · rw [List.count_eq_zero_of_not_mem hedge] at hpend
      exact .inl ⟨⟨hy, hnot, by omega⟩, hne⟩
  · rintro (⟨⟨hy, hnot, hzero⟩, hne⟩ | ⟨hy, hedge, hzero⟩)
    · exact ⟨hy, ⟨hne, hnot⟩, by omega⟩
    · have hpos := hi.pending_pos hg hx hedge
      refine ⟨hy, ⟨?_, fun hmem => ?_⟩, hzero⟩
      · rintro rfl
        exact Nat.lt_irrefl _ (((hg.ready_iff hi.nodes).mp hx).2.2 ▸ hpos)
      · exact Nat.lt_irrefl _ ((hi.closed y hmem).2 ▸ hpos)

theorem Graph.Sorting.Inv.mem_next (hq : s.queue = x.name :: q) (n : String) :
    n ∈ q ∨ n ∈ ((g.edges x.name).foldl Graph.release (s.inDegree, [])).2 ↔
      ∃ y, Ready g.nodes NeededBy (x :: done) y ∧ y.name = n := by
  have hfirst := (List.pairwise_cons.mp (hq ▸ hi.sorted)).1
  rw [(hi.release hg hx).2.2 n]
  constructor
  · rintro (hn | ⟨hedge, hzero⟩)
    · obtain ⟨y, hy, rfl⟩ := (hi.queue n).mp (hq ▸ List.mem_cons_of_mem _ hn)
      refine ⟨y, (hi.ready_cons hg hx).mpr (.inl ⟨hy, ?_⟩), rfl⟩
      rintro rfl
      exact Nat.lt_irrefl _ (hfirst _ hn)
    · have hmem := hedge
      rw [hg.wired.edges, List.mem_map] at hmem
      obtain ⟨e, he, hen⟩ := hmem
      obtain ⟨_, _, y, hy, _, hname, _⟩ := (hg.mem e.1 e.2).mp (List.mem_filter.mp he).1
      obtain rfl : y.name = n := hname.trans hen
      exact ⟨y, (hi.ready_cons hg hx).mpr (.inr ⟨hy, hedge, hzero⟩), rfl⟩
  · rintro ⟨y, hy, rfl⟩
    rcases (hi.ready_cons hg hx).mp hy with ⟨hready, hne⟩ | ⟨_, hedge, hzero⟩
    · have hqueue := (hi.queue y.name).mpr ⟨y, hready, rfl⟩
      rw [hq] at hqueue
      exact .inl ((List.mem_cons.mp hqueue).resolve_left fun heq => hne
        (hg.name_inj hready.mem hx.mem heq))
    · exact .inr ⟨hedge, hzero⟩

theorem Graph.Sorting.Inv.visit (hq : s.queue = x.name :: q) :
    (g.visit s x.name).Inv g es (x :: done) := by
  obtain ⟨hdeg, hnodup, hzero⟩ := hi.release hg hx
  have hnext := hi.mem_next hg hx hq
  have hsorted := List.pairwise_cons.mp (hq ▸ hi.sorted)
  constructor
  · simp [Graph.visit, hi.result, hg.node_eq hx.mem]
  · exact List.nodup_cons.mpr ⟨hx.notMem, hi.nodup⟩
  · intro y hy
    have hpend := hi.pending_edges hg hx y.name
    rcases List.mem_cons.mp hy with rfl | hy
    · have := ((hg.ready_iff hi.nodes).mp hx).2.2
      exact ⟨hx.mem, by omega⟩
    · have := (hi.closed y hy).2
      exact ⟨hi.nodes y hy, by omega⟩
  · exact hdeg
  · by_cases hnone : ((g.edges x.name).foldl Graph.release (s.inDegree, [])).2.isEmpty = true
    · simp only [Graph.visit, hnone, if_true, hq, List.tail_cons]
      exact hsorted.2
    · simp only [Graph.visit, hnone, hq, List.tail_cons, Bool.false_eq_true, if_false]
      refine Graph.sortQueue_sorted (fun n hn => ?_) ?_
      · obtain ⟨y, hy, rfl⟩ := (hnext n).mp (List.mem_append.mp hn)
        exact List.mem_map_of_mem hy.mem
      · refine List.nodup_append.mpr ⟨hsorted.2.imp fun hlt heq => ?_, hnodup,
          fun a ha b hb heq => ?_⟩
        · exact Nat.lt_irrefl _ (heq ▸ hlt)
        · subst heq
          obtain ⟨y, hy, rfl⟩ := (hi.queue a).mp (hq ▸ List.mem_cons_of_mem _ ha)
          have hpos := hi.pending_pos hg hx ((hzero _).mp hb).1
          exact Nat.lt_irrefl _ (((hg.ready_iff hi.nodes).mp hy).2.2 ▸ hpos)
  · intro n
    rw [← hnext n]
    by_cases hnone : ((g.edges x.name).foldl Graph.release (s.inDegree, [])).2.isEmpty = true
    · simp only [Graph.visit, hnone, if_true, hq, List.tail_cons]
      rw [List.isEmpty_iff.mp hnone]
      simp
    · simp only [Graph.visit, hnone, hq, List.tail_cons, Bool.false_eq_true, if_false]
      exact (List.perm_insertionSort _ _).mem_iff.trans List.mem_append

end

/-- The whole loop takes the ready node registered first each time, until none is ready. -/
theorem Graph.loop_greedy (fuel : Nat) :
    ∀ (done : List (Item β)) (s : Graph.Sorting β),
    s.Inv g es done → g.nodes.length ≤ done.length + fuel →
    ∃ out, Greedy g.nodes NeededBy (registered g.nodes) done out ∧ (g.loop fuel s).result =
      s.result ++ out := by
  induction fuel with
  | zero =>
    intro done s hi hlen
    have hperm : done.Perm g.nodes := (hi.nodup.subperm hi.nodes).perm_of_length_le (by omega)
    exact ⟨[], .stop fun v hv => hv.notMem (hperm.mem_iff.mpr hv.mem), by simp [Graph.loop]⟩
  | succ fuel ih =>
    intro done s hi hlen
    cases hq : s.queue with
    | nil =>
      refine ⟨[], .stop fun v hv => ?_, by simp [Graph.loop, hq]⟩
      have := (hi.queue v.name).mpr ⟨v, hv, rfl⟩
      simp [hq] at this
    | cons n q =>
      obtain ⟨x, rfl, hx, hmin⟩ := hi.front hq
      have hvisit := hi.visit hg hx hq
      obtain ⟨out, hout, heq⟩ := ih (x :: done) _ hvisit (by rw [List.length_cons]; omega)
      refine ⟨x :: out, .step hx hmin hout, ?_⟩
      rw [Graph.loop, hq, List.head?_cons, Option.elim_some, heq, hvisit.result, hi.result]
      simp

theorem Graph.topologicalSort_spec (walk walk' : List String)
    (hwalk : walk.Perm (g.nodes.map Item.name)) :
    (¬ Cyclic g.nodes NeededBy → ∃ sorted, g.topologicalSort walk walk' = .ok sorted ∧
      IsOrder g.nodes NeededBy sorted ∧
      ∀ other, IsOrder g.nodes NeededBy other →
        sorted.map (registered g.nodes) ≤ other.map (registered g.nodes)) ∧
    (Cyclic g.nodes NeededBy → ∃ involving, g.topologicalSort walk walk' =
    .error (.cyclicDependency involving)) := by
  classical
  have hpend : ∀ v, g.inDegree v = pending es ([] : List (Item β)) v := fun v => by
    rw [hg.wired.inDegree, pending]
    simp
  have hi : Graph.Sorting.Inv g es []
      ⟨g.sortQueue (walk.filter (g.inDegree · = 0)), g.inDegree, []⟩ := by
    refine ⟨rfl, List.nodup_nil, by simp, hpend, Graph.sortQueue_sorted (fun n hn => ?_) ?_,
      fun n => ?_⟩
    · exact hwalk.mem_iff.mp (List.mem_filter.mp hn).1
    · exact (hwalk.nodup_iff.mpr hg.nodup).filter _
    · rw [show g.sortQueue _ = List.insertionSort _ _ from rfl,
        (List.perm_insertionSort _ _).mem_iff, List.mem_filter, hwalk.mem_iff, List.mem_map,
        decide_eq_true_eq]
      constructor
      · rintro ⟨⟨x, hx, rfl⟩, hzero⟩
        rw [hpend] at hzero
        exact ⟨x, (hg.ready_iff (by simp)).mpr ⟨hx, by simp, by omega⟩, rfl⟩
      · rintro ⟨x, hx, rfl⟩
        obtain ⟨hmem, _, hzero⟩ := (hg.ready_iff (by simp)).mp hx
        exact ⟨⟨x, hmem, rfl⟩, by rw [hpend]; omega⟩
  obtain ⟨out, hout, heq⟩ := Graph.loop_greedy hg g.nodes.length [] _ hi (by simp)
  rw [List.nil_append] at heq
  have hnodup : g.nodes.Nodup := hg.nodup.of_map _
  obtain ⟨hleast, hstuck⟩ := hout.spec hnodup fun a ha b hb hab =>
    hg.name_inj ha hb (Graph.order_inj (List.mem_map_of_mem ha) hab)
  constructor
  · intro hacyclic
    obtain ⟨horder, hmin⟩ := hleast hacyclic
    refine ⟨out, ?_, horder, hmin⟩
    simp only [Graph.topologicalSort, heq, horder.perm.length_eq, ne_eq,
      not_true_eq_false, if_false]
  · intro hcyclic
    have hlen := hstuck hcyclic
    simp only [Graph.topologicalSort, heq]
    exact ⟨_, if_pos (by omega)⟩

end Loop

/-! ## Build -/

theorem Graph.declared_of_calls {g : Graph β} {items : List (Item β)} (hnodes : g.nodes = items)
    (hnames : (items.map Item.name).Nodup)
    (hrequired : ∀ x ∈ items, ∀ dep ∈ x.requiredDependencies, dep ∈ items.map Item.name)
    (hwired : g.Wired (items.flatMap (Item.calls (items.map Item.name)))) :
    g.Declared (items.flatMap (Item.calls (items.map Item.name))) := by
  subst hnodes
  refine ⟨hnames, hwired, fun a b => ?_⟩
  rw [List.mem_flatMap]
  constructor
  · rintro ⟨y, hy, hmem⟩
    rw [Item.calls, List.mem_append, List.mem_map, List.mem_map] at hmem
    rcases hmem with ⟨dep, hdep, heq⟩ | ⟨dep, hdep, heq⟩
    · cases heq
      obtain ⟨x, hx, rfl⟩ := List.mem_map.mp (hrequired y hy _ hdep)
      exact ⟨x, hx, y, hy, rfl, rfl, .inl hdep⟩
    · cases heq
      obtain ⟨hdep, hpresent⟩ := List.mem_filter.mp hdep
      obtain ⟨x, hx, rfl⟩ :=
        List.mem_map.mp (List.contains_iff_mem.mp (Bool.and_eq_true_iff.mp hpresent).2)
      exact ⟨x, hx, y, hy, rfl, rfl, .inr hdep⟩
  · rintro ⟨x, hx, y, hy, rfl, rfl, hneeded⟩
    refine ⟨y, hy, ?_⟩
    rw [Item.calls, List.mem_append, List.mem_map, List.mem_map]
    by_cases hreq : x.name ∈ y.requiredDependencies
    · exact .inl ⟨x.name, hreq, rfl⟩
    · refine .inr ⟨x.name, List.mem_filter.mpr ⟨hneeded.resolve_left hreq, ?_⟩, rfl⟩
      simp only [Bool.and_eq_true, Bool.not_eq_true', List.contains_iff_mem]
      exact ⟨by simpa using hreq, List.mem_map_of_mem hx⟩

theorem build_eq (walk walk' : List String) (items : List (Item β))
    (hempty : ∀ x ∈ items, x.name ≠ "") (hnames : (items.map Item.name).Nodup) :
    build walk walk' items =
      ((⟨items, fun _ => [], fun _ => 0⟩ : Graph β).addEdges items).bind
      (·.topologicalSort walk walk') := by
  have hnodes := Graph.addNodes_eq items Graph.new 0 rfl hempty hnames (by simp [Graph.new])
  cases items with
  | nil => rfl
  | cons x items =>
    rw [build, if_neg (by simp), hnodes]
    rfl

/-- For every list of items with distinct, non-empty names, whatever they declare. The walks are the
orders in which Go ranges over the map of nodes. -/
theorem build_least_order (items : List (Item β)) (walk walk' : List String)
    (hempty : ∀ x ∈ items, x.name ≠ "") (hnames : (items.map Item.name).Nodup)
    (hwalk : walk.Perm (items.map Item.name)) :
    ((∃ x ∈ items, ∃ dep ∈ x.requiredDependencies, dep ∉ items.map Item.name) →
      ∃ x ∈ items, ∃ dep ∈ x.requiredDependencies, dep ∉ items.map Item.name ∧
        build walk walk' items = .error (.missingDependency x.name dep)) ∧
    ((∀ x ∈ items, ∀ dep ∈ x.requiredDependencies, dep ∈ items.map Item.name) →
      (¬ Cyclic items NeededBy → ∃ sorted, build walk walk' items = .ok sorted ∧
      IsOrder items NeededBy sorted ∧
        ∀ other, IsOrder items NeededBy other →
          sorted.map (registered items) ≤ other.map (registered items)) ∧
      ((∃ involving, build walk walk' items = .error (.cyclicDependency involving)) ↔
      Cyclic items NeededBy)) := by
  have hwired : (⟨items, fun _ => [], fun _ => 0⟩ : Graph β).Wired [] :=
    ⟨fun _ => rfl, fun _ => rfl⟩
  rw [build_eq walk walk' items hempty hnames]
  constructor
  · intro hmissing
    obtain ⟨x, hx, dep, hdep, hnot, heq⟩ := Graph.addEdges_missing items _ [] hwired hmissing
    exact ⟨x, hx, dep, hdep, hnot, by rw [heq]; rfl⟩
  · intro hrequired
    obtain ⟨g, heq, hnodes, hg⟩ := Graph.addEdges_ok items _ [] hwired hrequired
    change g.nodes = items at hnodes
    rw [List.nil_append] at hg
    obtain ⟨hleast, hcyclic⟩ :=
      Graph.topologicalSort_spec (Graph.declared_of_calls hnodes hnames hrequired hg)
      walk walk' (by rw [hnodes]; exact hwalk)
    rw [hnodes] at hleast hcyclic
    rw [heq]
    refine ⟨hleast, fun ⟨involving, herr⟩ => ?_, hcyclic⟩
    by_contra hacyclic
    obtain ⟨sorted, hok, _⟩ := hleast hacyclic
    cases hok.symm.trans herr

def chain : List (Item Unit) :=
  [⟨"log", [], [], ()⟩, ⟨"auth", ["session", "session"], ["log", "metrics"], ()⟩,
    ⟨"session", [], ["log"], ()⟩]

theorem build_least_order_chain :
    ∃ sorted, build (chain.map Item.name) [] chain = .ok sorted ∧ sorted.map Item.name =
      ["log", "session", "auth"] ∧
      IsOrder chain NeededBy sorted ∧
      ∀ other, IsOrder chain NeededBy other →
        sorted.map (registered chain) ≤ other.map (registered chain) := by
  have hok : build (chain.map Item.name) [] chain =
      .ok [⟨"log", [], [], ()⟩, ⟨"session", [], ["log"], ()⟩,
        ⟨"auth", ["session", "session"], ["log", "metrics"], ()⟩] := rfl
  obtain ⟨hleast, hcyclic⟩ :=
    (build_least_order chain (chain.map Item.name) [] (by decide) (by decide) (.refl _)).2
      (by decide)
  obtain ⟨sorted, heq, horder, hmin⟩ := hleast fun hc => by
    obtain ⟨_, herr⟩ := hcyclic.mpr hc
    cases hok.symm.trans herr
  refine ⟨sorted, heq, ?_, horder, hmin⟩
  cases hok.symm.trans heq
  rfl

/-- An item that needs itself and a missing one: the missing one is reported, not the cycle. -/
theorem missing_hides_cycle :
    Cyclic [(⟨"auth", ["auth", "session"], [], ()⟩ : Item Unit)] NeededBy ∧
    build ["auth"] ["auth"] [(⟨"auth", ["auth", "session"], [], ()⟩ : Item Unit)] =
      .error (.missingDependency "auth" "session") :=
  ⟨⟨_, .single ⟨List.mem_singleton_self _, List.mem_singleton_self _, .inl (by decide)⟩⟩, rfl⟩

end GoAtlas.Depgraph
