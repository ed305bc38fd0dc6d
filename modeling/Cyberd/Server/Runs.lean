import Cyberd.Server.Loads
import Cyberd.Server.Rounds

/-!
# Runs of the program

From the opening of the log on, every event leads from a sound state to a sound one by
moves, so that what is kept by the moves is kept by the runs. At each round of a run the
switch is the index of the registered nodes, and operates those that are ready.
-/

namespace Cyberd

open Library

namespace Server

-- The loop over all of the descriptors is not to be unrolled.
attribute [local irreducible] fdSetSize

/-- Why the handling of an event may stop: the parser of a connection leaves the memory of
its read, or the parsing of a configuration leaves a line buffer. -/
def Stops (platform : Platform) (s : Server) : ServerEvent → Trap → Prop
  | .round _ answers, trap => s.Overruns platform answers trap
  | .reload (some dir) _, trap => Unreadable dir.read trap
  | _, _ => False

/-- Why a run may stop: in the first load, or at one of its events. -/
def Halts (platform : Platform) (host : Host) (boot : ServerBoot) (events : List ServerEvent)
    (trap : Trap) : Prop :=
  Unreadable ((boot.boot.dirp.map Directory.read).getD []) trap ∨
    ∃ before event after s, events = before ++ event :: after ∧
      run platform host boot before = .ok s ∧ s.Stops platform event trap

/-- The state in which the root endpoint is created. -/
def start (boot : ServerBoot) : Server := { openlog boot with socketEndpointsPath := boot.path }

variable {s s' : Server} {host : Host} {platform : Platform} {given : Descriptors → Prop}

/-- The switch is not changed when children are forked. -/
theorem Forks.invariant (h : s.Forks given s') (hs : s.Invariant) (hworld : s'.world.Invariant) :
    s'.Invariant := by
  obtain ⟨w, new, rfl, -⟩ := h
  exact hs.congr hworld rfl rfl rfl rfl rfl

/-- Their forks are a move of the program. -/
theorem Forks.moves (h : s.Forks s.Gives s') (hs : s.Invariant) : Moves s s' :=
  .single ⟨hs, .change 0 s' (.forked s' h)⟩

/-- What is opened of the entries can be read when the entries can. -/
theorem unreadable_served {entries : List DirEntry} {answer : OpenAnswer} {trap : Trap}
    (h : Unreadable (entries.map (s.served answer)) trap) : Unreadable entries trap := by
  obtain ⟨htrap, served, hmem, filep, hfilep, hfile⟩ := h
  obtain ⟨entry, hentry, rfl⟩ := List.mem_map.mp hmem
  simp only [Server.served] at hfilep
  split at hfilep
  · exact ⟨htrap, entry, hentry, filep, hfilep, hfile⟩
  · cases hfilep

theorem unreadable_opened {dirp : Option Directory} {answer : OpenAnswer} {trap : Trap}
    (h : Unreadable (((s.opened answer dirp).map Directory.read).getD []) trap) :
    ∃ dir, dirp = some dir ∧ Unreadable dir.read trap := by
  have hnone : ¬ Unreadable [] trap := by
    rintro ⟨-, entry, hmem, -⟩
    cases hmem
  cases dirp with
  | none => exact absurd h hnone
  | some dir =>
    refine ⟨dir, rfl, ?_⟩
    cases htake : s.takeFile answer.dirfd with
    | none =>
      simp only [opened, htake] at h
      exact absurd h hnone
    | some fd =>
      simp only [opened, htake, Option.map_some, Option.getD_some, servedDirectory_read] at h
      exact unreadable_served h

/-- The start of the program is sound. -/
theorem start_invariant (boot : ServerBoot) : (start boot).Invariant := by
  constructor
  · exact boot.boot.world_invariant
  · rintro a node ⟨⟩
  · exact TreeNode.wellFormed_null
  · simp [start, openlog]
  · rintro a node ⟨⟩
  · simp [start, openlog]
  · rintro a node ⟨⟩

/-- `socket_switch_setup` inserts the root endpoint, if it can be created. -/
theorem socketSwitchSetup_ok (boot : ServerBoot) :
    ∃ s, (openlog boot).socketSwitchSetup boot.path boot.root boot.mkdir boot.create = .ok s ∧
      s.world = boot.boot.world ∧ s.Invariant ∧ Moves (start boot) s := by
  have hstart := start_invariant boot
  unfold socketSwitchSetup
  by_cases hmkdir : boot.mkdir = false
  · exact ⟨start boot, if_pos hmkdir, rfl, hstart, .refl⟩
  simp only [if_neg hmkdir]
  rcases socketEndpointNodeCreate_ok hstart 0 boot.create boot.root (.refl capsetAll) with
    ⟨s, heq, hworld, hinv, hchanges, -⟩ | ⟨snode, s₁, s, heq, hinsert, hworld, hinv, hchanges, -⟩
  · rw [start] at heq
    simp only [heq]
    exact ⟨s, rfl, hworld, hinv, changes_moves hchanges⟩
  · rw [start] at heq
    simp only [heq]
    exact ⟨s, hinsert, hworld, hinv, changes_moves hchanges⟩

/-- `setup` leads to a sound state by moves. -/
theorem setup_ok (host : Host) (boot : ServerBoot) :
    Outcome (Unreadable ((boot.boot.dirp.map Directory.read).getD []))
      (fun s => s.Invariant ∧ Moves (start boot) s) (setup host boot) := by
  obtain ⟨s, hs, hworld, hinv, hmoves⟩ := socketSwitchSetup_ok boot
  rw [setup, hs, except_bind_ok]
  have hload := Boot.load_ok host { boot.boot with dirp := s.opened boot.load boot.boot.dirp }
  have hfollows := @configurationLoad_follows host boot.load s boot.boot.dirp
  rw [hworld] at hfollows
  apply (hfollows.outcome hload).mono
  · rintro s' ⟨w, hw, rfl, hforks⟩
    exact ⟨hforks.invariant hinv hw, hmoves.trans (hforks.moves hinv)⟩
  · intro trap ht
    obtain ⟨dir, hdir, hunreadable⟩ := unreadable_opened ht
    rw [hdir]
    exact hunreadable

/-- The handling of an event of the daemons alone. -/
theorem record_ok (h : s.Invariant) (event : ServerEvent) (event' : Event)
    (hentries : event'.entries = [])
    (hstep : s.step platform host event = do
      let w ← s.world.step host event'
      return s.record w) :
    Outcome (s.Stops platform event) (fun s' => s'.Invariant ∧ Moves s s')
      (s.step platform host event) := by
  have hworld := @World.step_ok host s.world h.world event'
  rw [hentries] at hworld
  rw [hstep]
  apply (hworld.result.mono (fun _ hw => hw) ?_).bind
  · rintro w ⟨hw, hinv⟩
    have hforks := forks_step hw
    exact ⟨hforks.invariant h hinv, hforks.moves h⟩
  · rintro trap ⟨-, entry, hmem, -⟩
    cases hmem

/-- Every event leads to a sound state by moves. -/
theorem step_ok (h : s.Invariant) (event : ServerEvent) :
    Outcome (s.Stops platform event) (fun s' => s'.Invariant ∧ Moves s s')
      (s.step platform host event) := by
  cases event with
  | round ready answers => exact round_ok h ready
  | reload dirp answer =>
    have hreload := @World.step_ok host s.world h.world (.reload (s.opened answer dirp))
    apply ((configurationReload_follows s dirp).outcome hreload).mono
    · rintro s' ⟨w, hw, rfl, hforks⟩
      exact ⟨hforks.invariant h hw, hforks.moves h⟩
    · intro trap ht
      have hentries : (Event.reload (s.opened answer dirp)).entries =
          ((s.opened answer dirp).map Directory.read).getD [] := by
        cases s.opened answer dirp <;> rfl
      rw [hentries] at ht
      obtain ⟨dir, rfl, hunreadable⟩ := unreadable_opened ht
      exact hunreadable
  | reap infos => exact record_ok h (.reap infos) (.reap infos) rfl rfl
  | adopt pid => exact record_ok h (.adopt pid) (.adopt pid) rfl rfl

/-- What the first load and every event keep in sound states, every run keeps. -/
theorem run_ok (platform : Platform) (host : Host) (boot : ServerBoot)
    (events : List ServerEvent) :
    Outcome (Halts platform host boot events) (fun s => s.Invariant ∧ Moves (start boot) s)
      (run platform host boot events) := by
  apply ((setup_ok host boot).result.mono (fun _ hs => hs) fun _ ht => Or.inl ht).bind
  rintro s₀ ⟨hs₀, hs⟩
  have hrun : ∀ done, run platform host boot done = done.foldlM (step platform host) s₀ := by
    intro done
    rw [run, hs₀, except_bind_ok]
  apply Outcome.foldlM_reached (fun _ s => s.Invariant ∧ Moves (start boot) s) hs
  rintro done event rest s hevents hdone ⟨hinv, hmoves⟩
  apply (@step_ok s host platform hinv event).mono
  · rintro s' ⟨hinv', hmoves'⟩
    exact ⟨hinv', hmoves.trans hmoves'⟩
  · intro trap ht
    exact Or.inr ⟨done, event, rest, s, hevents, (hrun done).trans hdone, ht⟩

/-- What the moves keep in sound states, every run keeps. -/
theorem run_induction (inv : Server → Prop) (platform : Platform) (host : Host)
    (boot : ServerBoot) (events : List ServerEvent) (hstart : inv (start boot))
    (hmove : ∀ s s', s.Invariant → Move s s' → inv s → inv s') :
    Outcome (Halts platform host boot events) (fun s => s.Invariant ∧ inv s)
      (run platform host boot events) := by
  apply (run_ok platform host boot events).mono _ fun _ ht => ht
  rintro s ⟨hinv, hmoves⟩
  refine ⟨hinv, ?_⟩
  clear hinv
  induction hmoves with
  | refl => exact hstart
  | tail _ hstep ih => exact hmove _ _ hstep.1 hstep.2 ih

end Server

end Cyberd
