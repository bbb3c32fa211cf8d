import GoAtlas.Saga.Rollback

/-!
# What completion means

A driver commits a stage only after every action of it returned success in the driver's own run of
the stage. A saga that is persisted as completed has thus performed every action, whoever drove it
and however often it was taken over.
-/

namespace GoAtlas.Saga

open GoAtlas.Lib

variable {defn : Definition} {log : List Event} {s s' : Sys} {d : Nat} {x : Driver} {e : Event}

def Performed (defn : Definition) (log : List Event) (stage : Nat) : Prop :=
  ∀ step < (defn.stepsAt stage).length, ∃ d, .returned d .action stage step true ∈ log

theorem Performed.append {stage : Nat} (h : Performed defn log stage) (l : List Event) :
    Performed defn (log ++ l) stage :=
  fun step hstep => (h step hstep).imp fun _ hmem => List.mem_append_left l hmem

/-- A commit moves the cursor over a stage that was performed. -/
def Commits (defn : Definition) (log : List Event) (e : Event) : Prop :=
  ∀ d inst, e = .saved d .committed inst → Performed defn log (inst.stage - 1)

/-- The commits of the log, and those that drivers are about to save. -/
structure Acted (defn : Definition) (s : Sys) : Prop where
  log : Guarded (Commits defn) s.log
  drivers : ∀ d, (s.driver d).phase = .saving .committed →
    Performed defn s.log ((s.driver d).inst.stage - 1)

theorem Acted.setDriver (h : Acted defn s)
    (hx : x.phase = .saving .committed → Performed defn s.log (x.inst.stage - 1)) :
    Acted defn (s.setDriver d x) where
  log := h.log
  drivers := by
    intro d'
    by_cases hd : d' = d
    · subst hd
      simpa [Sys.setDriver] using hx
    · simpa [Sys.setDriver, Function.update_of_ne hd] using h.drivers d'

theorem Acted.append (h : Acted defn s) (he : Commits defn s.log e)
    (hx : x.phase ≠ .saving .committed) (stored : Option Instance) :
    Acted defn { s.setDriver d x with stored := stored, log := s.log ++ [e] } where
  log := h.log.concat he
  drivers := fun d' hd' => ((h.setDriver (d := d) fun hp => absurd hp hx).drivers d' hd').append [e]

theorem Acted.update (h : Acted defn s) {k : Checkpoint} {inst : Instance} (r : Reply)
    (hk : k = .committed → Performed defn s.log (inst.stage - 1))
    (hx : x.phase ≠ .saving .committed) :
    Acted defn ((s.update d k inst r).1.setDriver d x) := by
  rcases update_cases s d k inst r with ⟨err, hu⟩ | ⟨cur, -, -, hu⟩
  · rw [hu]
    exact h.setDriver fun hp => absurd hp hx
  · rw [hu]
    refine h.append (fun d' inst' heq => ?_) hx _
    cases heq
    exact hk rfl

/-! ## Only a stage that succeeded is committed -/

theorem saved_ne (k : Checkpoint) : (x.saved defn k).phase ≠ .saving .committed := by
  cases k <;> grind [Driver.saved, Driver.drive, Driver.runForward, Driver.compensate, Driver.exit]

theorem saveFailed_ne (err : Err) (k : Checkpoint) :
    (x.saveFailed err k).phase ≠ .saving .committed := by
  cases k <;> simp [Driver.saveFailed, Driver.abort, Driver.exit]

theorem execute_ne (inst : Instance) (recovering : Bool) (now until_ : Int) :
    (x.execute defn d inst recovering now until_).phase ≠ .saving .committed := by
  unfold Driver.execute
  grind [Driver.abort]

theorem reload_ne (now : Int) (got : Option Instance) :
    (x.reload d now got).phase ≠ .saving .committed := by
  cases got <;> grind [Driver.reload]

theorem stageUndone_ne {stage : Nat} {w : Work} {end_ : Driver.StageEnd} {x' : Driver}
    (hx' : x.stageUndone stage w end_ = some x') : x'.phase ≠ .saving .committed := by
  unfold Driver.stageUndone at hx'
  grind [Driver.exit]

theorem performed_stageRun {w : Work} {end_ : Driver.StageEnd} {x' : Driver}
    (h : Conforms defn log d x) (hw : x.phase = .acting w) (hx' : x.stageRun defn w end_ = some x')
    (hp : x'.phase = .saving .committed) : Performed defn log (x'.inst.stage - 1) := by
  simp only [Conforms, hw] at h
  obtain ⟨-, -, -, -, hsteps, ht⟩ := h
  have hall : w.allSucceeded ∧ x'.inst.stage = x.inst.stage + 1 := by
    unfold Driver.stageRun at hx'
    grind [Driver.exit]
  intro step hstep
  rw [hall.2] at hstep ⊢
  have hin : step ∈ w.steps := hsteps ▸ List.mem_range.mpr hstep
  have hdone := ht.succeeded step (mem_succeeded hall.1 hin)
  obtain ⟨front, hlog, -⟩ := since_split d log
  exact ⟨d, hlog ▸ List.mem_append_right front hdone⟩

theorem Acted.step {a : Action} (h : Acted defn s) (hi : Inv defn s)
    (hs : s.step defn a = some s') :
    Acted defn s' := by
  cases a with
  | save d r =>
    simp only [Sys.step] at hs
    split at hs
    · rename_i k hp
      have hall {x : Driver} := h.update (d := d) (x := x) r fun hk => h.drivers d (hk ▸ hp)
      split at hs
      all_goals
        rename_i heq
        cases hs
        rw [heq] at hall
      · exact hall (saved_ne k)
      · exact hall (saveFailed_ne _ k)
    · cases hs
  | release d r =>
    simp only [Sys.step] at hs
    split at hs
    · cases hs
      refine h.update r (by simp) ?_
      unfold Driver.released
      split <;> simp
    · cases hs
  | endStage d end_ =>
    simp only [Sys.step, Sys.endStage] at hs
    split at hs <;> simp only [Option.ite_none_right_eq_some, Option.map_eq_some_iff,
      reduceCtorEq] at hs
    · rename_i w hw
      obtain ⟨-, x', hx', rfl⟩ := hs
      exact h.setDriver (performed_stageRun (hi.drivers d) hw hx')
    · obtain ⟨-, x', hx', rfl⟩ := hs
      exact h.setDriver fun hx => absurd hx (stageUndone_ne hx')
  | _ =>
    -- the other steps call no Update and leave the driver elsewhere
    simp only [Sys.step, Sys.call, Sys.finish] at hs
    grind [Acted.setDriver, Acted.append, Commits, Driver.abort, execute_ne, reload_ne]

/-- In every run, when a saga is persisted as completed every action of every stage has returned
success. -/
theorem completed_performed {actions : List Action} {pre post : List Event} {inst : Instance}
    (h : (Sys.machine defn).run .initial actions = some s)
    (hlog : s.log = pre ++ .saved d .completed inst :: post) :
    ∀ stage < defn.stages.length, Performed defn pre stage := by
  have hinit : Inv defn .initial ∧ Acted defn .initial :=
    ⟨inv_initial, .nil, fun _ hp => by cases hp⟩
  obtain ⟨hinv, hacted⟩ :=
    Machine.invariant_run (fun _ _ => True) (fun s => Inv defn s ∧ Acted defn s)
    (fun _ _ _ hi _ hs => ⟨inv_step hi.1 hs, hi.2.step hi.1 hs⟩) hinit
    (Machine.along_of_mem (fun _ _ _ => trivial) _) h
  have hlegal := hlog ▸ hinv.legal
  have hcommits := hlog ▸ hacted.log
  intro stage hstage
  cases hlegal pre _ post rfl with
  | saved _ _ base _ hcur _ hw =>
    cases hw with
    | completed hstatus hend =>
      obtain ⟨d', inst', hmem, hnext⟩ := committed_below hlegal.of_append base
        (List.mem_of_getLast? hcur) hstatus stage (Nat.lt_of_lt_of_le hstage hend)
      obtain ⟨front, rest, rfl⟩ := List.append_of_mem hmem
      have hdone := hcommits.of_append front _ rest rfl d' inst' rfl
      rw [hnext] at hdone
      exact hdone.append _

def completedRun : List Action :=
  [.start 0 none 0 10 .ok, .save 0 .ok, .save 0 .ok, .begin_ 0 0, .finish 0 0 .success, .kill 0,
   .resume 1 true 20 30 true, .save 1 .ok, .save 1 .ok, .begin_ 1 0, .finish 1 0 .success,
   .endStage 1 (.normal ""), .save 1 .ok, .save 1 .ok, .begin_ 1 0, .finish 1 0 .success,
   .endStage 1 (.normal ""), .save 1 .ok, .save 1 .ok]

theorem completed_performed_once : ∃ s, (Sys.machine twoStages).run .initial completedRun = some s ∧
    s.stored.map Instance.status = some .completed ∧
    ∃ pre, pre <+: s.log ∧ Performed twoStages pre 0 ∧ Performed twoStages pre 1 := by
  obtain ⟨s, pre, d, inst, hs, hstatus, hlog⟩ : ∃ s pre d inst,
      (Sys.machine twoStages).run .initial completedRun = some s ∧
        s.stored.map Instance.status = some .completed ∧
        s.log = pre ++ .saved d .completed inst :: [] :=
    ⟨_, [_, _, _, _, _, _, _, _, _, _, _, _, _, _], _, _, rfl, rfl, rfl⟩
  exact ⟨s, hs, hstatus, pre, hlog ▸ List.prefix_append ..,
    completed_performed hs hlog 0 (by decide), completed_performed hs hlog 1 (by decide)⟩

end GoAtlas.Saga
