import ModalTableau.Proofs.Worklist

/-!
# What ceilings do

A ceiling ends an attempt or has no effect on it. Under higher ceilings a branch takes the same steps
and has more of them left, so a tableau that came to an end does so again, and with the stack every
segment gets the same number (`Draft.work_of_roomier`). A fault is about one branch: `Overruns` says
how many steps led to it and which ceiling it passed.
-/

namespace ModalTableau

-- ---------------------------------------------------------------------------
-- Higher ceilings
-- ---------------------------------------------------------------------------

namespace Draft

variable {β : Type} [Growable β] {limits limits' : Limits} {d d' : Draft}
  {tasks tasks' : List (Task β)}

inductive Task.Roomier {β : Type} : Task β → Task β → Prop
  | intro {b n inferences remaining remaining'} (le : remaining ≤ remaining') :
      Roomier ⟨b, n, inferences, remaining⟩ ⟨b, n, inferences, remaining'⟩

/-- The two stacks stay in step. A task that is at its last step on one of them need not be so on the
other, but it takes no further step on either. -/
theorem work_of_roomier (blocking : limits'.blocking = limits.blocking)
    (worlds : limits.maxWorlds ≤ limits'.maxWorlds)
    (roomier : List.Forall₂ Task.Roomier tasks tasks') (h : work limits d tasks = .ok d') :
    work limits' d tasks' = .ok d' := by
  fun_induction work limits d tasks generalizing tasks' with
  | case1 d =>
    cases roomier
    simpa [work] using h
  | case2 d b n inferences remaining pending clash hc ih =>
    obtain - | ⟨⟨le⟩, rest⟩ := roomier
    unfold work
    simpa only [hc] using ih rest h
  | case3 => cases h
  | case4 d b n inferences pending hc remaining hs ih =>
    obtain - | ⟨⟨le⟩, rest⟩ := roomier
    obtain ⟨room, rfl⟩ := Nat.exists_eq_succ_of_ne_zero (Nat.ne_zero_of_lt le)
    simpa [work, hc, blocking, hs] using ih rest h
  | case5 d b n inferences pending hc remaining rule premise left right after hs ih =>
    obtain - | ⟨⟨le⟩, rest⟩ := roomier
    obtain ⟨room, rfl⟩ := Nat.exists_eq_succ_of_ne_zero (Nat.ne_zero_of_lt le)
    have le := Nat.le_of_succ_le_succ le
    simpa [work, hc, blocking, hs] using ih (.cons ⟨le⟩ (.cons ⟨le⟩ rest)) h
  | case6 => cases h
  | case7 d b n inferences pending hc remaining applied after hs hw ih =>
    obtain - | ⟨⟨le⟩, rest⟩ := roomier
    obtain ⟨room, rfl⟩ := Nat.exists_eq_succ_of_ne_zero (Nat.ne_zero_of_lt le)
    have hw' : ¬ limits'.maxWorlds < Growable.worldCount after := fun hlt =>
      hw (Nat.lt_of_le_of_lt worlds hlt)
    simpa [work, hc, blocking, hs, hw'] using ih (.cons ⟨Nat.le_of_succ_le_succ le⟩ rest) h

theorem build_of_le {root : Signed} (blocking : limits'.blocking = limits.blocking)
    (iterations : limits.maxIterations ≤ limits'.maxIterations)
    (worlds : limits.maxWorlds ≤ limits'.maxWorlds) (h : build limits root = .ok d) :
    build limits' root = .ok d :=
  work_of_roomier blocking worlds (.cons ⟨iterations⟩ .nil) h

end Draft

namespace Tableau

open Branch (Run)

/-- On its way from `start` a branch passes a ceiling, which gives this fault. It may take `n` steps;
before the last one counted it has no contradiction. -/
inductive Overruns (limits : Limits) (start : Branch) (n : Nat) : Fault → Prop
  | iterations {b} (run : Run limits.blocking n start b) (unclosed : b.clash = none) :
      Overruns limits start n
        ⟨.iterations limits.maxIterations, limits.maxIterations, b.worlds.size⟩
  | worlds {k b inferences after} (run : Run limits.blocking k start b) (room : k < n)
      (unclosed : b.clash = none) (step : b.step limits.blocking = .extended inferences after)
      (past : limits.maxWorlds < after.worlds.size) :
      Overruns limits start n
        ⟨.worlds limits.maxWorlds, limits.maxIterations - (n - (k + 1)), after.worlds.size⟩

variable {limits limits' : Limits} {seed : List Signed} {b : Branch} {n n' : Nat} {t : Tableau}
  {root : Signed}

theorem build_ok_iff : build limits root = .ok t ↔
    ∃ d, Draft.build limits root = .ok d ∧ d.tableau? = some t :=
  ok_iff_of_map (Draft.build_map_tableau? limits root)

-- ---------------------------------------------------------------------------
-- Faults
-- ---------------------------------------------------------------------------

theorem Overruns.head {b' : Branch} {fault : Fault} (first : Branch.Next limits.blocking b b')
    (h : Overruns limits b' n fault) : Overruns limits b (n + 1) fault := by
  cases h with
  | iterations run unclosed => exact .iterations (.head first run) unclosed
  | worlds run room unclosed step past =>
    rw [← Nat.add_sub_add_right n 1]
    exact .worlds (.head first run) (Nat.succ_lt_succ room) unclosed step past

theorem overruns_of_grow {fault : Fault} (h : grow limits seed b n = .error fault) :
    Overruns limits b n fault := by
  induction n generalizing seed b with
  | zero =>
    rw [grow] at h
    split at h
    next => cases h
    next hc =>
      cases h
      exact .iterations (.refl b) hc
  | succ n ih =>
    rw [grow] at h
    split at h
    next => cases h
    next hc =>
      split at h
      next => cases h
      next rule premise left right after hs =>
        rcases bind_error.mp h with h | ⟨leftTree, -, h⟩
        · exact (ih h).head (.choice hs (.inl rfl))
        · rcases bind_error.mp h with h | ⟨rightTree, -, h⟩
          · exact (ih h).head (.choice hs (.inr rfl))
          · cases h
      next inferences after hs =>
        split at h
        next past =>
          cases h
          exact .worlds (.refl b) (Nat.succ_pos n) hc hs past
        next => exact (ih (map_error.mp h)).head (.extended hs)

/-- Counted from the root, a fault tells the number of steps that led to it. -/
theorem Overruns.tells {fault : Fault} (h : Overruns limits b limits.maxIterations fault) :
    fault.iterations ≤ limits.maxIterations ∧
      (fault.ceiling = .iterations limits.maxIterations ∧ fault.iterations = limits.maxIterations ∨
        fault.ceiling = .worlds limits.maxWorlds ∧ limits.maxWorlds < fault.worlds) ∧
      ∃ b', Run limits.blocking fault.iterations b b' ∧ fault.worlds = b'.worlds.size := by
  cases h with
  | iterations run unclosed => exact ⟨Nat.le_refl _, .inl ⟨rfl, rfl⟩, _, run, rfl⟩
  | worlds run room unclosed step past =>
    refine ⟨Nat.sub_le _ _, .inr ⟨rfl, past⟩, _, ?_, rfl⟩
    rw [Nat.sub_sub_self room]
    exact run.concat (.extended step)

theorem build_error_iff {fault : Fault} :
    Draft.build limits root = .error fault ↔ build limits root = .error fault := by
  have hmap := Draft.build_map_tableau? limits root
  rw [← map_error (f := Draft.tableau?), hmap, map_error]

/-- Ceilings cut off but never alter: what is finished under some is finished under higher ones with
the same tableau, and with the stack as the same draft. A fault names the ceiling that was passed and
counts the steps and the worlds of the branch that passed it. -/
theorem ceilings_only_cut (root : Signed) (blocking : Bool) (maxIterations maxWorlds : Nat) :
    (∀ maxIterations' ≥ maxIterations, ∀ maxWorlds' ≥ maxWorlds,
      (∀ t, build ⟨maxIterations, maxWorlds, blocking⟩ root = .ok t →
        build ⟨maxIterations', maxWorlds', blocking⟩ root = .ok t) ∧
      ∀ d, Draft.build ⟨maxIterations, maxWorlds, blocking⟩ root = .ok d →
        Draft.build ⟨maxIterations', maxWorlds', blocking⟩ root = .ok d) ∧
    ∀ fault, build ⟨maxIterations, maxWorlds, blocking⟩ root = .error fault ∨
        Draft.build ⟨maxIterations, maxWorlds, blocking⟩ root = .error fault →
      fault.iterations ≤ maxIterations ∧
        (fault.ceiling = .iterations maxIterations ∧ fault.iterations = maxIterations ∨
          fault.ceiling = .worlds maxWorlds ∧ maxWorlds < fault.worlds) ∧
        ∃ b, Run blocking fault.iterations (.ofRoot root) b ∧ fault.worlds = b.worlds.size := by
  refine ⟨fun maxIterations' hi maxWorlds' hw => ?_, fun fault hf => ?_⟩
  · have hdraft : ∀ d, Draft.build ⟨maxIterations, maxWorlds, blocking⟩ root = .ok d →
        Draft.build ⟨maxIterations', maxWorlds', blocking⟩ root = .ok d :=
      fun d => Draft.build_of_le rfl hi hw
    refine ⟨fun t ht => ?_, hdraft⟩
    obtain ⟨d, hd, htableau⟩ := build_ok_iff.mp ht
    exact build_ok_iff.mpr ⟨d, hdraft d hd, htableau⟩
  · rw [build_error_iff, or_self] at hf
    exact (overruns_of_grow hf).tells

def excludedChoice : Signed :=
  ⟨2, .T, .and (.diamond (.or (.atom "p") (.atom "q"))) (.box (.not (.atom "p")))⟩

/-- Six steps and three worlds are just enough. -/
theorem ceilings_only_cut_excludedChoice : ∃ t,
    build ⟨6, 3, true⟩ excludedChoice = .ok t ∧ build ⟨9, 5, true⟩ excludedChoice = .ok t ∧
      build ⟨5, 3, true⟩ excludedChoice = .error ⟨.iterations 5, 5, 3⟩ ∧
      build ⟨6, 2, true⟩ excludedChoice = .error ⟨.worlds 2, 2, 3⟩ ∧
      ∃ b, Run true 2 (.ofRoot excludedChoice) b ∧ 3 = b.worlds.size := by
  obtain ⟨t, ht, -⟩ := ok_of_toOption (show
    (build ⟨6, 3, true⟩ excludedChoice).toOption.map (·.isClosed) = some false by decide +kernel)
  have hi : build ⟨5, 3, true⟩ excludedChoice = .error ⟨.iterations 5, 5, 3⟩ :=
    map_error.mp (show (build ⟨5, 3, true⟩ excludedChoice).map (·.isClosed) = _ by decide +kernel)
  have hw : build ⟨6, 2, true⟩ excludedChoice = .error ⟨.worlds 2, 2, 3⟩ :=
    map_error.mp (show (build ⟨6, 2, true⟩ excludedChoice).map (·.isClosed) = _ by decide +kernel)
  have hcut := ceilings_only_cut excludedChoice true
  exact ⟨t, ht, ((hcut 6 3).1 9 (by decide) 5 (by decide)).1 t ht, hi, hw,
    ((hcut 6 2).2 _ (.inl hw)).2.2⟩

end Tableau
end ModalTableau
