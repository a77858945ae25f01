import ModalTableau.Proofs.Records
import ModalTableau.Proofs.Trails

/-!
# Paths are proofs

The lines along a path can be checked one after another, each against the lines before it
(`AllJustified`): a premise must have been asserted, the rule must be the one for it, and the
conclusion one that the rule draws. A step adds only lines that pass (`Accounts.extended`), and what
the lines say is what the branch holds: its formulas, its edges, and which of the edges are reused.
-/

namespace ModalTableau

open Segment (Line)

namespace Segment.Line

def asserted? : Line → Option Signed
  | seed s | inferred (.derived s _ _) => some s
  | inferred (.access _ _ _ _) | split _ _ => none

end Segment.Line

/-- The formulas asserted along some lines, in order, as often as they are. -/
def asserted (lines : List Line) : List Signed := lines.filterMap Line.asserted?

def Accessed (lines : List Line) (d : Edge) (reused : Bool) : Prop :=
  ∃ rule premise, .inferred (.access d rule premise reused) ∈ lines

/-- Whether the rule of `premise`, with expansion `x`, concludes `c` after the given lines. A rule
about every successor needs an edge, one that asks for a successor must just have got it. -/
def Expansion.Concludes (lines : List Line) (rule : Rule) (premise c : Signed) : Expansion → Prop
  | alpha cs => c ∈ cs
  | beta _ _ => False
  | someSuccessor sign f => c = ⟨c.world, sign, f⟩ ∧
      lines.getLast? = some (.inferred (.access ⟨premise.world, c.world⟩ rule premise false))
  | everySuccessor sign f => c = ⟨c.world, sign, f⟩ ∧
      ∃ reused, Accessed lines ⟨premise.world, c.world⟩ reused

namespace Segment.Line

/-- A new successor has a number above all others. One that is there already has all that a new one
would receive. -/
def Successor (lines : List Line) (d : Edge) (sign : Sign) (f : Formula) : (reused : Bool) → Prop
  | false => ∀ s ∈ asserted lines, s.world < d.target
  | true => ⟨d.target, sign, f⟩ ∈ asserted lines ∧
      ∀ s ∈ asserted lines, s.world = d.source → ∀ sign' g,
        s.expansion? = some (.everySuccessor sign' g) → ⟨d.target, sign', g⟩ ∈ asserted lines

def Justified (lines : List Line) : Line → Prop
  | seed s => ∃ rule premise left right, lines.getLast? = some (.split rule premise) ∧
      premise.expand = some (rule, .beta left right) ∧ (s = left ∨ s = right)
  | split rule premise => premise ∈ asserted lines ∧
      ∃ left right, premise.expand = some (rule, .beta left right)
  | inferred (.derived c rule premise) => premise ∈ asserted lines ∧ c ∉ asserted lines ∧
      ∃ x, premise.expand = some (rule, x) ∧ x.Concludes lines rule premise c
  | inferred (.access d rule premise reused) => premise ∈ asserted lines ∧
      d.source = premise.world ∧ ∃ sign f, premise.expand = some (rule, .someSuccessor sign f) ∧
        Successor lines d sign f reused

end Segment.Line

/-- Each line may stand where it stands, after `before` and the lines between. -/
def AllJustified (before : List Line) : List Line → Prop
  | [] => True
  | line :: rest => line.Justified before ∧ AllJustified (before ++ [line]) rest

theorem allJustified_append {before lines lines' : List Line} :
    AllJustified before (lines ++ lines') ↔
      AllJustified before lines ∧ AllJustified (before ++ lines) lines' := by
  induction lines generalizing before with
  | nil => simp [AllJustified]
  | cons line rest ih => simp [AllJustified, ih, and_assoc]

@[simp] theorem asserted_append (lines lines' : List Line) :
    asserted (lines ++ lines') = asserted lines ++ asserted lines' :=
  List.filterMap_append

@[simp] theorem asserted_nil : asserted [] = [] := rfl

@[simp] theorem asserted_seed (s : Signed) (lines : List Line) :
    asserted (.seed s :: lines) = s :: asserted lines := rfl

@[simp] theorem asserted_derived (c premise : Signed) (rule : Rule) (lines : List Line) :
    asserted (.inferred (.derived c rule premise) :: lines) = c :: asserted lines := rfl

@[simp] theorem asserted_access (d : Edge) (rule : Rule) (premise : Signed) (reused : Bool)
    (lines : List Line) :
    asserted (.inferred (.access d rule premise reused) :: lines) = asserted lines := rfl

@[simp] theorem asserted_split (rule : Rule) (premise : Signed) (lines : List Line) :
    asserted (.split rule premise :: lines) = asserted lines := rfl

@[simp] theorem asserted_map_derived (cs : List Signed) (rule : Rule) (premise : Signed) :
    asserted (cs.map (Line.inferred ∘ (.derived · rule premise))) = cs := by
  induction cs with
  | nil => rfl
  | cons c rest ih => simp [ih]

section Accessed

variable {lines lines' : List Line} {d d' : Edge} {rule : Rule} {premise s : Signed}
  {reused reused' : Bool}

@[simp] theorem accessed_append :
    Accessed (lines ++ lines') d reused ↔ Accessed lines d reused ∨ Accessed lines' d reused := by
  simp [Accessed, exists_or]

@[simp] theorem not_accessed_nil : ¬ Accessed [] d reused := by simp [Accessed]

@[simp] theorem accessed_access :
    Accessed (.inferred (.access d' rule premise reused') :: lines) d reused ↔
      (d = d' ∧ reused = reused') ∨ Accessed lines d reused := by
  simp only [Accessed, List.mem_cons, Line.inferred.injEq, Inference.access.injEq, exists_or]
  refine or_congr_left ⟨?_, ?_⟩
  · rintro ⟨_, _, hd, -, -, hr⟩
    exact ⟨hd, hr⟩
  · rintro ⟨hd, hr⟩
    exact ⟨rule, premise, hd, rfl, rfl, hr⟩

@[simp] theorem accessed_derived :
    Accessed (.inferred (.derived s rule premise) :: lines) d reused ↔ Accessed lines d reused := by
  simp [Accessed]

@[simp] theorem accessed_seed :
    Accessed (.seed s :: lines) d reused ↔ Accessed lines d reused := by
  simp [Accessed]

@[simp] theorem accessed_split :
    Accessed (.split rule premise :: lines) d reused ↔ Accessed lines d reused := by
  simp [Accessed]

@[simp] theorem not_accessed_map_derived (cs : List Signed) :
    ¬ Accessed (cs.map (Line.inferred ∘ (.derived · rule premise))) d reused := by
  simp [Accessed]

end Accessed

-- ---------------------------------------------------------------------------
-- Without repetitions
-- ---------------------------------------------------------------------------

theorem eraseDups_concat (l : List Signed) (s : Signed) :
    (l ++ [s]).eraseDups = if s ∈ l then l.eraseDups else l.eraseDups ++ [s] := by
  rw [List.eraseDups_append]
  by_cases h : s ∈ l <;> simp [List.removeAll, List.eraseDups_cons, h]

theorem eraseDups_append_of_nodup {l new : List Signed} (h : (l.eraseDups ++ new).Nodup) :
    (l ++ new).eraseDups = l.eraseDups ++ new := by
  induction new generalizing l with
  | nil => simp
  | cons s rest ih =>
    have hs : s ∉ l := by
      intro hs
      exact (List.nodup_append.mp h).2.2 s (List.mem_eraseDups.mpr hs) s (by simp) rfl
    have hl : (l ++ [s]).eraseDups = l.eraseDups ++ [s] := by rw [eraseDups_concat, if_neg hs]
    rw [List.append_cons, ih (by simpa [hl] using h), hl]
    simp

-- ---------------------------------------------------------------------------
-- Accounts
-- ---------------------------------------------------------------------------

/-- The lines after the root say what the branch holds, and each of them may stand where it does. -/
structure Accounts (root : Signed) (lines : List Line) (b : Branch) : Prop where
  formulas : b.formulas = (asserted (.seed root :: lines)).eraseDups
  edges : ∀ d, d ∈ b.edges ↔ ∃ reused, Accessed lines d reused
  reused : ∀ d, d ∈ b.reused ↔ d ∈ b.edges ∧ ¬ Accessed lines d false
  justified : AllJustified [.seed root] lines

theorem allJustified_derived {before : List Line} {new : List Signed} {rule : Rule}
    {premise : Signed} {x : Expansion} (hp : premise ∈ asserted before)
    (hx : premise.expand = some (rule, x)) (hnew : ∀ c ∈ new, c ∉ asserted before)
    (hnodup : new.Nodup) (hc : ∀ c ∈ new, ∀ more, x.Concludes (before ++ more) rule premise c) :
    AllJustified before ((new.map (.derived · rule premise)).map .inferred) := by
  induction new generalizing before with
  | nil => trivial
  | cons c rest ih =>
    obtain ⟨hc', hrest⟩ := List.nodup_cons.mp hnodup
    refine ⟨⟨hp, hnew c (by simp), x, hx, by simpa using hc c (by simp) []⟩, ih ?_ ?_ hrest ?_⟩
    · simp [hp]
    · intro c' hmem
      have hne : c' ≠ c := fun heq => hc' (heq ▸ hmem)
      simpa [asserted, Line.asserted?, hne] using hnew c' (List.mem_cons_of_mem _ hmem)
    · intro c' hmem more
      rw [List.append_assoc]
      exact hc c' (List.mem_cons_of_mem _ hmem) _

namespace Accounts

open Branch

variable {root premise s : Signed} {lines : List Line} {b b' after : Branch} {e e' : Entry}
  {rule : Rule} {x : Expansion} {sign : Sign} {f : Formula} {v w : World} {blocking : Bool}
  {inferences : List Inference}

theorem ofRoot (root : Signed) : Accounts root [] (.ofRoot root) := by
  constructor
  · have hroot : (Branch.ofRoot root).formulas = [root] := rfl
    simp [hroot, asserted, Line.asserted?, List.eraseDups_cons]
  · simp [Branch.ofRoot, empty, Accessed]
  · simp [Branch.ofRoot, empty]
  · trivial

theorem mem_iff (h : Accounts root lines b) : s ∈ asserted (.seed root :: lines) ↔ s ∈ b := by
  rw [mem_iff_formulas, h.formulas, List.mem_eraseDups]

theorem marked (h : Accounts root lines b) (hm : Marked b e e' b') : Accounts root lines b' := by
  constructor
  · rw [hm.formulas_eq, h.formulas]
  · rw [hm.edges_eq]
    exact h.edges
  · rw [hm.edges_eq, hm.reused_eq]
    exact h.reused
  · exact h.justified

theorem derive {cs : List Signed} (h : Accounts root lines b) (ht : b.Tidy) (hp : premise ∈ b)
    (hx : premise.expand = some (rule, x))
    (hc : ∀ c ∈ cs, ∀ more, x.Concludes (.seed root :: lines ++ more) rule premise c) :
    Accounts root (lines ++ ((b.addAll cs).2.map (.derived · rule premise)).map .inferred)
      (b.addAll cs).1 := by
  have hnodup : (b.formulas ++ (b.addAll cs).2).Nodup := by
    rw [← formulas_addAll, addAll_fst]
    exact (ht.foldl_add cs).nodup
  constructor
  · rw [formulas_addAll, List.map_map, ← List.cons_append, asserted_append, asserted_map_derived,
      eraseDups_append_of_nodup, h.formulas]
    rwa [← h.formulas]
  · simpa [addAll_fst] using h.edges
  · simpa [addAll_fst] using h.reused
  · rw [allJustified_append]
    refine ⟨h.justified, allJustified_derived (h.mem_iff.mpr hp) hx ?_
      (List.nodup_append.mp hnodup).2.1 fun c hmem => hc c (mem_addAll_snd hmem).1⟩
    intro c hmem hc'
    exact (mem_addAll_snd hmem).2 (h.mem_iff.mp hc')

theorem reuse (h : Accounts root lines b) (hp : premise ∈ b)
    (hx : premise.expand = some (rule, .someSuccessor sign f))
    (hb : b.blocker? premise.world sign f = some v) :
    Accounts root (lines ++ [.inferred (.access ⟨premise.world, v⟩ rule premise true)])
      (b.reuse ⟨premise.world, v⟩) := by
  obtain ⟨hv, hmore⟩ := blocker?_eq_some hb
  constructor
  · simpa [Branch.formulas] using h.formulas
  · intro d
    rw [edges_reuse, mem_edges_addEdge, h.edges]
    simp [or_comm, or_assoc]
  · intro d
    have hnone : d ∉ b.edges → ¬ Accessed lines d false :=
      fun hd ha => hd ((h.edges d).mpr ⟨false, ha⟩)
    rw [mem_reused_reuse, edges_reuse, mem_edges_addEdge, h.reused]
    constructor
    · rintro (⟨hd, hn⟩ | ⟨rfl, hd⟩)
      · exact ⟨.inr hd, by simpa using hn⟩
      · exact ⟨.inl rfl, by simpa using hnone hd⟩
    · rintro ⟨hd, hn⟩
      have hn : ¬ Accessed lines d false := by simpa using hn
      by_cases hold : d ∈ b.edges
      · exact .inl ⟨hold, hn⟩
      · obtain rfl := hd.resolve_right hold
        exact .inr ⟨rfl, hold⟩
  · rw [allJustified_append]
    refine ⟨h.justified, ⟨h.mem_iff.mpr hp, rfl, sign, f, hx, h.mem_iff.mpr hv, ?_⟩, trivial⟩
    intro s hs hw sign' g hx'
    exact h.mem_iff.mpr (hmore s (h.mem_iff.mp hs) hw sign' g hx')

theorem fresh (h : Accounts root lines b) (ht : b.Tidy) (hp : premise ∈ b)
    (hx : premise.expand = some (rule, .someSuccessor sign f)) :
    Accounts root
      (lines ++ [.inferred (.access ⟨premise.world, b.nextWorld⟩ rule premise false),
        .inferred (.derived ⟨b.nextWorld, sign, f⟩ rule premise)])
      ((b.addEdge ⟨premise.world, b.nextWorld⟩).add ⟨b.nextWorld, sign, f⟩) := by
  have hbelow : ∀ s ∈ b, s.world < b.nextWorld := fun s hs => lt_nextWorld (ht.world_mem s hs)
  have hnew : ⟨b.nextWorld, sign, f⟩ ∉ b := fun hmem => Nat.lt_irrefl _ (hbelow _ hmem)
  have hnew' : ⟨b.nextWorld, sign, f⟩ ∉ asserted (.seed root :: lines) := mt h.mem_iff.mp hnew
  have hedge : ⟨premise.world, b.nextWorld⟩ ∉ b.edges :=
    fun hd => nextWorld_not_mem (ht.target_mem _ hd)
  constructor
  · have hold : (b.addEdge ⟨premise.world, b.nextWorld⟩).formulas =
        (asserted (.seed root :: lines)).eraseDups := h.formulas
    rw [formulas_add_of_not_mem (b := b.addEdge _) hnew, hold, ← List.cons_append, asserted_append,
      asserted_access, asserted_derived, asserted_nil, eraseDups_concat, if_neg hnew']
  · intro d
    rw [edges_add, mem_edges_addEdge, h.edges]
    simp [or_assoc, or_comm, or_left_comm]
  · intro d
    rw [reused_add, edges_add, mem_edges_addEdge]
    have hreused := h.reused d
    constructor
    · intro hd
      obtain ⟨hd, hn⟩ := hreused.mp hd
      have hne : d ≠ ⟨premise.world, b.nextWorld⟩ := fun heq => hedge (heq ▸ hd)
      exact ⟨.inr hd, by simp [hn, hne]⟩
    · rintro ⟨hd, hn⟩
      have hn : ¬ Accessed lines d false ∧ d ≠ ⟨premise.world, b.nextWorld⟩ := by simpa using hn
      exact hreused.mpr ⟨hd.resolve_left hn.2, hn.1⟩
  · rw [allJustified_append]
    have hsame : asserted ([.seed root] ++ lines ++
        [.inferred (.access ⟨premise.world, b.nextWorld⟩ rule premise false)]) =
          asserted (.seed root :: lines) := by simp
    refine ⟨h.justified, ⟨h.mem_iff.mpr hp, rfl, sign, f, hx, ?_⟩, ⟨?_, ?_, _, hx, rfl, ?_⟩, trivial⟩
    · intro s hs
      exact hbelow s (h.mem_iff.mp hs)
    · rw [hsame]
      exact h.mem_iff.mpr hp
    · rwa [hsame]
    · exact List.getLast?_concat

theorem choice {left right : Signed} (h : Accounts root lines b) (hp : premise ∈ b)
    (hx : premise.expand = some (rule, .beta left right)) (hs : s = left ∨ s = right) :
    Accounts root (lines ++ [.split rule premise, .seed s]) (b.add s) := by
  constructor
  · have hlast : asserted [.split rule premise, .seed s] = [s] := rfl
    rw [← List.cons_append, asserted_append, hlast, eraseDups_concat, ← h.formulas]
    split
    next hmem => rw [add_of_mem (h.mem_iff.mp hmem)]
    next hmem => rw [formulas_add_of_not_mem (mt h.mem_iff.mpr hmem)]
  · simpa using h.edges
  · simpa using h.reused
  · rw [allJustified_append]
    refine ⟨h.justified, ⟨h.mem_iff.mpr hp, left, right, hx⟩, ⟨?_, trivial⟩⟩
    exact ⟨rule, premise, left, right, List.getLast?_concat, hx, hs⟩

-- ---------------------------------------------------------------------------
-- Steps and trails
-- ---------------------------------------------------------------------------

theorem extended (h : Accounts root lines b) (ht : b.Tidy)
    (hs : b.step blocking = .extended inferences after) :
    Accounts root (lines ++ inferences.map .inferred) after := by
  cases stepped_of hs with
  | alpha marked unused expand =>
    exact (h.marked marked).derive (marked.tidy ht) marked.premise_mem expand fun c hc _ => hc
  | @spread e b' rule sign f marked unused expand waiting =>
    refine (h.marked marked).derive (marked.tidy ht) marked.premise_mem expand fun c hc more => ?_
    obtain ⟨v, hv, rfl⟩ := List.mem_map.mp hc
    obtain ⟨reused, hd⟩ := (h.edges _).mp (mem_unreached.mp hv).1
    exact ⟨rfl, reused, by simp [hd]⟩
  | reuse linear choice marked unused expand block blocker =>
    exact (h.marked marked).reuse marked.premise_mem expand blocker
  | fresh linear choice marked unused expand unblocked =>
    exact (h.marked marked).fresh (marked.tidy ht) marked.premise_mem expand

theorem trail {more : List Line} (h : Accounts root lines b) (hr : Reachable [] b)
    (htrail : Trail blocking b more b') : Accounts root (lines ++ more) b' := by
  induction htrail generalizing lines with
  | refl => simpa using h
  | extended unclosed step _ ih =>
    rw [← List.append_assoc]
    exact ih (h.extended hr.tidy step) (hr.next (.extended step))
  | choice unclosed step chosen _ ih =>
    rw [← List.append_assoc]
    refine ih ?_ (hr.next (.choice step chosen))
    cases stepped_of step with
    | split linear marked unused expand =>
      exact (h.marked marked).choice marked.premise_mem expand chosen

end Accounts

theorem path_is_proof {limits : Limits} {root : Signed} {t u : Tableau} {path : List Segment}
    (hb : Tableau.build limits root = .ok t) (hr : Tree.Route t path u)
    (hu : u.label.status.isTerminal = true) :
    ∃ b lines, u.label.branch = some b ∧ path.flatMap Segment.lines = .seed root :: lines ∧
      b.formulas = (asserted (path.flatMap Segment.lines)).eraseDups ∧
      (∀ d, d ∈ b.edges ↔ ∃ reused, Accessed lines d reused) ∧
      (∀ d, d ∈ b.reused ↔ (∃ reused, Accessed lines d reused) ∧ ¬ Accessed lines d false) ∧
      AllJustified [.seed root] lines ∧
      ∀ clash, u.label.status = .closed clash →
        clash ∈ asserted (path.flatMap Segment.lines) ∧
          clash.conjugate ∈ asserted (path.flatMap Segment.lines) := by
  obtain ⟨lines, b, hlines, htrail, hkept⟩ := Tableau.trail_of_build hb hr hu
  have h : Accounts root lines b := (Accounts.ofRoot root).trail (.ofRoot root) htrail
  refine ⟨b, lines, hkept.branch_eq, hlines, hlines ▸ h.formulas, h.edges, ?_, h.justified, ?_⟩
  · intro d
    rw [h.reused, h.edges]
  · intro clash hstatus
    obtain ⟨n, hrun⟩ := htrail.run
    have ht : b.Tidy := ((Branch.Reachable.ofRoot root).run hrun).tidy
    rw [hlines, h.mem_iff, h.mem_iff]
    exact ht.clashing clash (hkept.clash_eq hstatus)

/-- The left alternative of the split is on the branch already, and the new world is then taken as
its own successor. -/
def Formula.repeating : Formula :=
  .and (.and (.or (.atom "p") (.atom "q")) (.atom "p"))
    (.and (.diamond (.atom "r")) (.box (.diamond (.atom "r"))))

theorem path_is_proof_of_repeating :
    ∃ t path u b lines, Tableau.build ⟨20, 3, true⟩ ⟨4, .T, .repeating⟩ = .ok t ∧
      Tree.Route t path u ∧ u.label.status = .saturated ∧ u.label.branch = some b ∧
      path.flatMap Segment.lines = .seed ⟨4, .T, .repeating⟩ :: lines ∧
      (asserted (path.flatMap Segment.lines)).length = 10 ∧ b.formulas.length = 9 ∧
      b.formulas = (asserted (path.flatMap Segment.lines)).eraseDups ∧
      b.reused.toList = [⟨5, 5⟩] ∧ ¬ Accessed lines ⟨5, 5⟩ false ∧
      AllJustified [.seed ⟨4, .T, .repeating⟩] lines := by
  obtain ⟨t, hb, ht⟩ := ok_of_toOption (show
    (Tableau.build ⟨20, 3, true⟩ ⟨4, .T, .repeating⟩).toOption.map (fun t =>
      t.children.any fun u => u.label.status = .saturated ∧
        (asserted ([t.label, u.label].flatMap Segment.lines)).length = 10 ∧
        u.label.branch.any fun b => b.formulas.length = 9 ∧ b.reused.toList = [⟨5, 5⟩]) =
      some true by decide +kernel)
  obtain ⟨s, ts⟩ := t
  obtain ⟨⟨s', ts'⟩, hu, ht⟩ := List.any_eq_true.mp ht
  obtain ⟨hstatus, hlength, hkept⟩ := of_decide_eq_true ht
  obtain ⟨b, hbranch, hkept⟩ := (Option.any_eq_true _ _).mp hkept
  obtain ⟨hformulas, hreused⟩ := of_decide_eq_true hkept
  have hroute : Tree.Route (.node s ts) [s, s'] (.node s' ts') := .down hu (.here s' ts')
  obtain ⟨b', lines, hbranch', hlines, hsaid, -, hedges, hjust, -⟩ :=
    path_is_proof hb hroute (by rw [hstatus]; rfl)
  obtain rfl : b = b' := Option.some.inj (hbranch.symm.trans hbranch')
  refine ⟨_, _, _, b, lines, hb, hroute, hstatus, hbranch, hlines, hlength, hformulas, hsaid,
    hreused, ((hedges ⟨5, 5⟩).mp ?_).2, hjust⟩
  simp [Ascending.mem_def, hreused]

end ModalTableau
