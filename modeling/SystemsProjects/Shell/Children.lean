import SystemsProjects.Shell.Stages

/-!
# The Children of a Pipeline

The loop of `runPipeline` over a list of commands, as a whole: which children it forks, with
which arguments and which descriptors, and what else it does to the shell. The loop comes to
its end, or it returns early at an empty command, or it runs into the end of `childPids`. In
each case the children it has forked are the first of those that are told here.

## Main definitions

* `stageChildren`: the children of the stages.
* `Staged`: what the loop may have done when it is left.

## Main results

* `runStages_spec`: the loop behind the first command.
* `runStages_pipeline`: the loop over two or more commands.
* `waitAll_run`: the loop over the children.
* `runCommands_pipeline`: a line with two or more commands.
-/

namespace SystemsProjects.Shell

open Stateful

variable {s s' s'' : ShellState} {v v' : Locals} {c d : Command Str} {cs : List (Command Str)}

/-! ### The children -/

/-- The child that a fork makes. -/
def ShellState.child (s : ShellState) (l : Launch) : Child := ⟨s.children.length + 1, l, s.fds⟩

/-- The children of the stages, from a stage on whose input the stage before it has left in
`r`. -/
def stageChildren : ℤ → ShellState → List (Command Str) → List Child
  | _, _, [] => []
  | r, s, [c] => [s.child (.pipe r (-1) c)]
  | r, s, c :: d :: rest =>
      s.piped.child (.pipe r s.writeEnd c) ::
        stageChildren s.readEnd (s.spawned (.pipe r s.writeEnd c)) (d :: rest)

/-- The process numbers of children, as `childPids` has them. -/
def pidsOf (l : List Child) : List ℤ := l.map fun c => (c.pid : ℤ)

/-- Every stage has a child. -/
theorem length_stageChildren (r : ℤ) (s : ShellState) (cs : List (Command Str)) :
    (stageChildren r s cs).length = cs.length := by
  induction cs generalizing r s with
  | nil => rfl
  | cons c rest ih =>
      cases rest with
      | nil => rfl
      | cons d rest => rw [stageChildren, List.length_cons, ih, List.length_cons (a := c)]

/-- The children are numbered from those on that the shell has had. -/
theorem pid_stageChildren (r : ℤ) (s : ShellState) (cs : List (Command Str)) :
    (stageChildren r s cs).map Child.pid = List.range' (s.children.length + 1) cs.length := by
  induction cs generalizing r s with
  | nil => rfl
  | cons c rest ih =>
      cases rest with
      | nil => rfl
      | cons d rest =>
          rw [stageChildren, List.map_cons, ih, ShellState.children_spawned,
            List.length_append, List.length_cons (a := c), List.range'_succ]
          rfl

/-- The stages run the commands, in order. -/
theorem cmd_stageChildren (r : ℤ) (s : ShellState) (cs : List (Command Str)) :
    (stageChildren r s cs).map (·.launch.cmd) = cs := by
  induction cs generalizing r s with
  | nil => rfl
  | cons c rest ih =>
      cases rest with
      | nil => rfl
      | cons d rest =>
          rw [stageChildren, List.map_cons, ih]
          rfl

/-- The children of the stages have the commands of the line, one each and in order. -/
theorem unlinked_stageChildren (r : ℤ) (s : ShellState) (cs : List (Command Str)) :
    (stageChildren r s cs).map (fun a => a.launch.cmd.unlinked) = cs.map Command.unlinked := by
  have h := congrArg (List.map Command.unlinked) (cmd_stageChildren r s cs)
  rwa [List.map_map] at h

/-! ### The loop -/

/-- What the stages leave as it is. -/
structure Untouched (s s' : ShellState) : Prop where
  waited : s'.waited = s.waited
  builtins : s'.builtins = s.builtins
  qbuf : s'.qbuf = s.qbuf
  status : s'.status = s.status
  fails : s'.fails = s.fails

/-- A state has left itself untouched. -/
theorem Untouched.refl : Untouched s s := ⟨rfl, rfl, rfl, rfl, rfl⟩

/-- What is untouched in two stretches is untouched in both together. -/
theorem Untouched.trans (h : Untouched s s') (h' : Untouched s' s'') : Untouched s s'' :=
  ⟨h'.waited.trans h.waited, h'.builtins.trans h.builtins, h'.qbuf.trans h.qbuf,
    h'.status.trans h.status, h'.fails.trans h.fails⟩

/-- The loop is left in a state where it has forked the first children, maybe all of them,
and no descriptor has been given up but the one the first stage gets, where this is the last
stage, too. -/
structure Staged (r : ℤ) (cs : List (Command Str)) (s s' : ShellState) : Prop where
  untouched : Untouched s s'
  forked : ∃ l, l <+: stageChildren r s cs ∧ s'.children = s.children ++ l
  kept : ∀ k : ℕ, s.fds.get k ≠ none →
    (k ≠ r ∨ cs.length ≠ 1 ∨ ∃ c ∈ cs, c.command = none) → s'.fds.get k = s.fds.get k

/-- At the start of the loop no child has been forked. -/
theorem Staged.refl {r : ℤ} : Staged r cs s s :=
  ⟨.refl, ⟨[], List.nil_prefix, (List.append_nil _).symm⟩, fun _ _ _ => rfl⟩

/-- A descriptor in use is none that a new pipe gets. -/
theorem ShellState.get_spawned_of_used {k : ℕ} (h : s.fds.get k ≠ none) (l : Launch) :
    (s.spawned l).fds.get k = s.fds.get k := by
  rw [get_spawned, if_neg]
  rintro rfl
  exact h s.get_readEnd

/-- A stage with a new pipe leaves `qbuf`, the built-ins and the children waited for alone. -/
theorem Untouched.spawned (l : Launch) : Untouched s (s.spawned l) := ⟨rfl, rfl, rfl, rfl, rfl⟩

/-- One more stage in front. -/
theorem Staged.cons {r : ℤ}
    (h : Staged s.readEnd (d :: cs) (s.spawned (.pipe r s.writeEnd c)) s') :
    Staged r (c :: d :: cs) s s' where
  untouched := .trans (.spawned _) h.untouched
  forked := by
    obtain ⟨l, hl, hs'⟩ := h.forked
    refine ⟨s.piped.child (.pipe r s.writeEnd c) :: l, ?_, ?_⟩
    · rw [stageChildren]
      exact List.cons_prefix_cons.mpr ⟨rfl, hl⟩
    · rw [hs', ShellState.children_spawned, List.append_assoc]
      rfl
  kept := by
    intro k hk _
    have hne : (k : ℤ) ≠ s.readEnd := by
      intro h
      obtain rfl := Int.natCast_inj.mp h
      exact hk s.get_readEnd
    have hsp := ShellState.get_spawned_of_used hk (.pipe r s.writeEnd c)
    rw [h.kept k (by rwa [hsp]) (.inl hne), hsp]

/-- The loop has come to its end. The last stage gives up the read end it gets, so that one
stage with a new pipe and the last one leave the descriptors as they were. -/
structure Complete (r : ℤ) (cs : List (Command Str)) (s s' : ShellState) (v v' : Locals) :
    Prop where
  nonempty : ∀ c ∈ cs, c.command ≠ none
  fits : v.childPids.length + cs.length ≤ 32
  children : s'.children = s.children ++ stageChildren r s cs
  childPids : v'.childPids = v.childPids ++ pidsOf (stageChildren r s cs)
  closed : cs.length = 1 → ∀ k : ℕ, s'.fds.get k = if (k : ℤ) = r then none else s.fds.get k
  restored : cs.length = 2 → ∀ k, s'.fds.get k = s.fds.get k

/-- What the loop returns, and the state it leaves. -/
def Outcome (r : ℤ) (cs : List (Command Str)) (s s' : ShellState) (v : Locals) :
    Option Locals → Prop
  | none => ∃ c ∈ cs, c.command = none
  | some v' => Complete r cs s s' v v'

/-- One more stage in front. -/
theorem Outcome.cons {r : ℤ} (hc : c.command ≠ none) {o : Option Locals}
    (h : Outcome s.readEnd (d :: cs) (s.spawned (.pipe r s.writeEnd c)) s' (v.spawned s) o) :
    Outcome r (c :: d :: cs) s s' v o := by
  cases o with
  | none =>
      obtain ⟨e, he, hnone⟩ := h
      exact ⟨e, List.mem_cons_of_mem _ he, hnone⟩
  | some v' =>
      refine ⟨?_, ?_, ?_, ?_, ?_, ?_⟩
      · intro e he
        rcases List.mem_cons.mp he with rfl | he
        · exact hc
        · exact h.nonempty e he
      · have hfits := h.fits
        simp only [Locals.spawned, List.length_append, List.length_cons, List.length_nil]
          at hfits ⊢
        omega
      · rw [h.children, ShellState.children_spawned, List.append_assoc, stageChildren]
        rfl
      · rw [h.childPids, Locals.spawned, List.append_assoc, stageChildren]
        rfl
      · nofun
      · intro hlen k
        rw [h.closed (Nat.succ.inj hlen), ShellState.get_spawned]
        by_cases hk : k = s.readEnd
        · rw [if_pos (by rw [hk]), hk, s.get_readEnd]
        · rw [if_neg (by omega), if_neg hk]

/-- The array of process numbers is full: a middle stage has forked its child. -/
theorem runStage_middle_full (h : Calm s) (hn : c.next ≠ none) (hp : c.prev ≠ none)
    (hv : ¬ v.childPids.length < 32) :
    runStage c v s = .error .childPids
      (s.called.piped.called.forked (.pipe v.previousPipeReadEnd s.writeEnd c)) := by
  have hcalm : Calm s.called.piped := h.of_fails rfl
  rw [runStage_eq_middle hn hp, run_bind_ok (pipe_run h _),
    run_bind_ok (runPipe_run hcalm.fork _ _)]
  exact run_bind_error (addChild_full (by exact hv) _)

/-- The array of process numbers is full: the last stage has forked its child. -/
theorem runStage_last_full (h : Calm s) (hn : c.next = none) (hp : c.prev ≠ none)
    (hv : ¬ v.childPids.length < 32) :
    runStage c v s = .error .childPids
      (s.called.forked (.pipe v.previousPipeReadEnd (-1) c)) := by
  rw [runStage_eq_last hn hp, run_bind_ok (runPipe_run h.fork _ _)]
  exact run_bind_error (addChild_full hv _)

/-- The last stage, whether it is counted or not. -/
theorem Staged.last {r : ℕ} (hc : c.command ≠ none)
    (hchildren : s'.children = s.children ++ [s.child (.pipe r (-1) c)]) (hu : Untouched s s')
    (hk : ∀ k : ℕ, k ≠ r → s'.fds.get k = s.fds.get k) : Staged r [c] s s' := by
  refine ⟨hu, ⟨_, List.prefix_rfl, hchildren⟩, fun k _ hor => hk k ?_⟩
  rintro rfl
  obtain hne | hne | ⟨e, he, hnone⟩ := hor
  · exact hne rfl
  · exact hne rfl
  · rw [List.mem_singleton.mp he] at hnone
    exact hc hnone

/-- A middle stage that is not counted any more. -/
theorem Staged.full (r : ℤ) :
    Staged r (c :: d :: cs) s (s.called.piped.called.forked (.pipe r s.writeEnd c)) := by
  refine ⟨⟨rfl, rfl, rfl, rfl, rfl⟩, ⟨[_], ?_, rfl⟩, fun k hk _ => ?_⟩
  · rw [stageChildren]
    exact List.cons_prefix_cons.mpr ⟨rfl, List.nil_prefix⟩
  · have hne : k ≠ s.writeEnd := by
      rintro rfl
      exact hk s.get_writeEnd
    have hne' : k ≠ s.readEnd := by
      rintro rfl
      exact hk s.get_readEnd
    exact (s.get_piped k).trans ((if_neg hne).trans (if_neg hne'))

/-- The loop over the last command. -/
theorem runStages_last {r : ℕ} (h : Calm s) (hc : c.command ≠ none) (hn : c.next = none)
    (hp : c.prev ≠ none) (hr : v.previousPipeReadEnd = r) :
    Ends (runStages [c] v) s (fun o s' => Staged r [c] s s' ∧ Outcome r [c] s s' v o)
      (fun e s' => Staged r [c] s s' ∧ e = .childPids ∧ 32 < v.childPids.length + 1) := by
  rw [runStages, if_neg hc]
  by_cases hlt : v.childPids.length < 32
  · refine .step (runStage_last h hn hp hlt hr) (.of_ok rfl ⟨?_, ?_⟩)
    · refine .last hc ?_ ⟨rfl, rfl, rfl, rfl, rfl⟩ fun k hk => Slots.get_set_of_ne _ _ hk
      rw [hr]
      rfl
    · refine ⟨?_, hlt, ?_, rfl, fun _ k => ?_, fun h => by cases h⟩
      · intro e he
        rwa [List.mem_singleton.mp he]
      · rw [hr]
        rfl
      · simp only [ShellState.closed, Slots.get_set, Int.natCast_inj]
        rfl
  · refine .of_error (run_bind_error (runStage_last_full h hn hp hlt)) ⟨?_, rfl, ?_⟩
    · refine .last hc ?_ ⟨rfl, rfl, rfl, rfl, rfl⟩ fun k _ => rfl
      rw [hr]
      rfl
    · omega

/-- The loop behind the first command. -/
theorem runStages_spec {r : ℕ} (h : Calm s) (hpos : Positioned false cs)
    (hr : v.previousPipeReadEnd = r) (hv : v.childPids.length ≤ 32) :
    Ends (runStages cs v) s
      (fun o s' => Staged r cs s s' ∧ Outcome r cs s s' v o)
      (fun e s' => Staged r cs s s' ∧ e = .childPids ∧
        32 < v.childPids.length + cs.length) := by
  induction cs generalizing s v r with
  | nil =>
      refine .of_ok rfl ⟨.refl, fun c hc => absurd hc List.not_mem_nil, hv, ?_, ?_, fun h => ?_,
        fun h => ?_⟩
      · exact (List.append_nil _).symm
      · exact (List.append_nil _).symm
      · cases h
      · cases h
  | cons c rest ih =>
      obtain ⟨hprev, hnext, hrest⟩ := hpos
      have hprev : c.prev ≠ none := fun h => absurd (hprev.mp h) Bool.false_ne_true
      by_cases hc : c.command = none
      · rw [runStages, if_pos hc]
        exact .of_ok rfl ⟨.refl, c, List.mem_cons_self, hc⟩
      cases rest with
      | nil => exact runStages_last h hc (hnext.mpr rfl) hprev hr
      | cons d rest =>
          have hnext : c.next ≠ none := fun h => absurd (hnext.mp h) (List.cons_ne_nil _ _)
          rw [runStages, if_neg hc]
          by_cases hlt : v.childPids.length < 32
          · refine .step (runStage_middle h hnext hprev hlt) ?_
            have hlen : (v.spawned s).childPids.length = v.childPids.length + 1 :=
              List.length_append
            have hcalm : Calm (s.spawned (.pipe v.previousPipeReadEnd s.writeEnd c)) :=
              h.of_fails rfl
            refine (ih (v := v.spawned s) hcalm hrest rfl (by omega)).mono ?_ ?_
            · rintro o t ⟨ht, ho⟩
              rw [hr] at ht ho
              exact ⟨ht.cons, ho.cons hc⟩
            · rintro e t ⟨ht, he, hfull⟩
              rw [hr] at ht
              rw [hlen] at hfull
              exact ⟨ht.cons, he, by rw [List.length_cons (a := c)]; omega⟩
          · refine .of_error (run_bind_error (runStage_middle_full h hnext hprev hlt))
              ⟨hr ▸ .full _, rfl, ?_⟩
            simp only [List.length_cons]
            omega

/-- The loop over two or more commands, of which the first is not empty. -/
theorem runStages_pipeline (h : Calm s) (hpos : Positioned true (c :: d :: cs))
    (hc : c.command ≠ none) (pipeFD : ℤ × ℤ) :
    ∃ l : Launch, l = .pipe (-1) s.writeEnd c ∧
      Ends (runStages (c :: d :: cs) ⟨-1, pipeFD, [], 0⟩) s
        (fun o s' => Staged s.readEnd (d :: cs) (s.spawned l) s' ∧
          Outcome (-1) (c :: d :: cs) s s' ⟨-1, pipeFD, [], 0⟩ o)
        (fun e s' => Staged s.readEnd (d :: cs) (s.spawned l) s' ∧ e = .childPids ∧
          32 < (c :: d :: cs).length) := by
  obtain ⟨hprev, hnext, hrest⟩ := hpos
  have hprev : c.prev = none := hprev.mpr rfl
  have hnext : c.next ≠ none := fun h => nomatch hnext.mp h
  refine ⟨_, rfl, ?_⟩
  rw [runStages, if_neg hc]
  refine .step (runStage_first h hnext hprev (Nat.zero_lt_succ 31)) ?_
  have hcalm : Calm (s.spawned (.pipe (-1) s.writeEnd c)) := h.of_fails rfl
  refine (runStages_spec (v := .spawned ⟨-1, pipeFD, [], 0⟩ s) hcalm hrest rfl
    (Nat.succ_le_succ (Nat.zero_le 31))).mono ?_ ?_
  · rintro o t ⟨ht, ho⟩
    exact ⟨ht, ho.cons hc⟩
  · rintro e t ⟨ht, he, hfull⟩
    refine ⟨ht, he, ?_⟩
    simp only [Locals.spawned, List.length_append, List.length_cons, List.length_nil] at hfull ⊢
    omega

/-! ### The loop over the children -/

/-- The children are waited for in order, and `qbuf` gets the status of the last one. -/
theorem waitAll_run (l : List Child) (exitCode : ℤ) (s : ShellState) :
    ∃ x, waitAll (pidsOf l) exitCode s = .ok x { s with
      waited := s.waited ++ l.map Child.pid
      qbuf := (l.getLast?.map fun c => decimal (wexitstatus (s.status c.pid))).getD s.qbuf } := by
  induction l generalizing exitCode s with
  | nil =>
      refine ⟨exitCode, ?_⟩
      rw [List.map_nil, List.append_nil]
      rfl
  | cons c rest ih =>
      obtain ⟨x, hx⟩ := ih (s.status c.pid) { s with
        waited := s.waited ++ [c.pid], qbuf := decimal (wexitstatus (s.status c.pid)) }
      refine ⟨x, Eq.trans ?_ (hx.trans ?_)⟩
      · rfl
      · cases rest with
        | nil => simp
        | cons d rest =>
            simp only [List.append_assoc, List.getLast?_cons, Option.map_some, Option.getD_some,
              Option.getD_some, List.map_cons]
            rfl

/-! ### The whole line -/

/-- The given children have been waited for. -/
def ShellState.reaped (s : ShellState) (l : List Child) : ShellState :=
  { s with
    waited := s.waited ++ l.map Child.pid
    qbuf := (l.getLast?.map fun c => decimal (wexitstatus (s.status c.pid))).getD s.qbuf }

/-- Behind a loop that has come to its end. -/
theorem finish_run {r : ℤ} (h : Complete r cs s s' v v') (hv : v.childPids = [])
    (t : ShellState) : ∃ x, finish (some v') t = .ok x (t.reaped (stageChildren r s cs)) := by
  obtain ⟨x, hx⟩ := waitAll_run (stageChildren r s cs) v'.exitCode t
  refine ⟨x, ?_⟩
  rw [finish, h.childPids, hv]
  exact hx

/-- The state a pipeline returns in: behind the loop, with all children waited for unless an
empty command has ended it early. -/
def Returned (cs : List (Command Str)) (s t s' : ShellState) (pipeFD : ℤ × ℤ) : Prop :=
  ((∃ c ∈ cs, c.command = none) ∧ s' = t) ∨
    ∃ v', Complete (-1) cs s t ⟨-1, pipeFD, [], 0⟩ v' ∧ s' = t.reaped (stageChildren (-1) s cs)

/-- A line with no command, or with an empty one in front: nothing is done. -/
theorem runCommands_empty {tokens : List Str}
    (hcs : ∀ c ∈ (commandsOf id s.heap.cells s.heap.size tokens).head?, c.command = none)
    (pipeFD : ℤ × ℤ) : ∃ x mem, runCommands tokens pipeFD s = .ok x { s with heap := mem } := by
  obtain ⟨cs, mem, -, hmap, hrun⟩ := runCommands_eq tokens pipeFD s
  rw [← hmap] at hcs
  cases cs with
  | nil => exact ⟨0, mem, hrun⟩
  | cons c rest =>
      have hc : c.command = none := hcs c.unlinked rfl
      refine ⟨1, mem, hrun.trans ?_⟩
      rw [runStages, if_pos hc]
      rfl

/-- A line with two or more commands, of which the first is not empty. -/
theorem runCommands_pipeline (h : Calm s) {tokens : List Str}
    (hcs : commandsOf id s.heap.cells s.heap.size tokens = c :: d :: cs) (hc : c.command ≠ none)
    (pipeFD : ℤ × ℤ) :
    ∃ c' d' cs' mem, (c' :: d' :: cs').map Command.unlinked = c :: d :: cs ∧
      Ends (runCommands tokens pipeFD) s
        (fun _ s' => ∃ t, Staged s.readEnd (d' :: cs')
            ({ s with heap := mem }.spawned (.pipe (-1) s.writeEnd c')) t ∧
          Returned (c' :: d' :: cs') { s with heap := mem } t s' pipeFD)
        (fun e s' => Staged s.readEnd (d' :: cs')
            ({ s with heap := mem }.spawned (.pipe (-1) s.writeEnd c')) s' ∧
          e = .childPids ∧ 32 < (c :: d :: cs).length) := by
  obtain ⟨l, mem, hpos, hl, hrun⟩ := runCommands_eq tokens pipeFD s
  rw [hcs] at hl
  obtain ⟨c', l, rfl, hc', hl⟩ := List.map_eq_cons_iff.mp hl
  obtain ⟨d', cs', rfl, hd', hcs'⟩ := List.map_eq_cons_iff.mp hl
  subst hc' hd' hcs'
  have hcalm : Calm { s with heap := mem } := h.of_fails rfl
  obtain ⟨_, rfl, hends⟩ := runStages_pipeline hcalm hpos hc pipeFD
  refine ⟨c', d', cs', mem, rfl, ?_⟩
  rw [Ends, hrun]
  refine Ends.bind (P := _) (hends.mono (fun _ _ h => h) ?_) ?_
  · rintro e t ⟨ht, he, hfull⟩
    refine ⟨ht, he, ?_⟩
    simpa only [List.length_cons, List.length_map] using hfull
  · rintro o t ⟨ht, ho⟩
    cases o with
    | none => exact .of_ok rfl ⟨t, ht, .inl ⟨ho, rfl⟩⟩
    | some v' =>
        have ho : Complete _ _ _ _ _ _ := ho
        obtain ⟨x, hx⟩ := finish_run ho rfl t
        exact .of_ok hx ⟨t, ht, .inr ⟨v', ho, rfl⟩⟩

/-- What a line of `cs` has done to the shell when all its commands were run by children. -/
structure RanPipeline (cs : List (Command Str)) (s s' : ShellState) : Prop where
  children : ∃ mem cs', cs'.map Command.unlinked = cs ∧
    s'.children = s.children ++ stageChildren (-1) { s with heap := mem } cs'
  builtins : s'.builtins = s.builtins
  status : s'.status = s.status
  fails : s'.fails = s.fails
  qbuf : s'.qbuf = decimal (wexitstatus (s.status (s.children.length + cs.length)))

/-- The status of the last child. -/
theorem qbuf_reaped {cs : List (Command Str)} (hcs : cs ≠ []) (r : ℤ) (s t : ShellState) :
    (t.reaped (stageChildren r s cs)).qbuf =
      decimal (wexitstatus (t.status (s.children.length + cs.length))) := by
  have hlast : ((stageChildren r s cs).map Child.pid).getLast? =
      some (s.children.length + cs.length) := by
    have hlen : cs.length ≠ 0 := fun h => hcs (List.length_eq_zero_iff.mp h)
    rw [pid_stageChildren, List.getLast?_range', if_neg hlen]
    congr 1
    omega
  obtain ⟨a, ha, hpid⟩ := Option.map_eq_some_iff.mp ((List.getLast?_map ..).symm.trans hlast)
  simp only [ShellState.reaped, ha, hpid, Option.map_some, Option.getD_some]

/-- A line of two commands or more, none of them empty: all of them are run, as far as there
is room in `childPids`. -/
theorem runCommands_ends (h : Calm s) {tokens : List Str}
    (hcs : commandsOf id s.heap.cells s.heap.size tokens = cs) (hlen : 2 ≤ cs.length)
    (hne : ∀ c ∈ cs, c.command ≠ none) (pipeFD : ℤ × ℤ) :
    Ends (runCommands tokens pipeFD) s (fun _ s' => RanPipeline cs s s' ∧ cs.length ≤ 32)
      (fun e _ => e = .childPids ∧ 32 < cs.length) := by
  match cs, hlen with
  | c :: d :: cs, _ =>
    have hc : c.command ≠ none := hne c List.mem_cons_self
    obtain ⟨c', d', cs', mem, hmap, hends⟩ := runCommands_pipeline h hcs hc pipeFD
    refine hends.mono ?_ fun _ _ he => he.2
    rintro x s' ⟨t, hst, ⟨⟨e, he, hnone⟩, -⟩ | ⟨v', hcomp, rfl⟩⟩
    · have he' : e.unlinked ∈ c :: d :: cs := by
        rw [← hmap]
        exact List.mem_map_of_mem he
      exact absurd hnone (hne e.unlinked he')
    · have hfits := hcomp.fits
      have hlen : (c' :: d' :: cs').length = (c :: d :: cs).length := by
        rw [← hmap, List.length_map]
      refine ⟨⟨⟨mem, _, hmap, hcomp.children⟩, hst.untouched.builtins, hst.untouched.status,
        hst.untouched.fails, ?_⟩, ?_⟩
      · rw [qbuf_reaped (List.cons_ne_nil _ _), hst.untouched.status, hlen]
        rfl
      · rw [← hlen]
        simpa only [List.length_nil, Nat.zero_add] using hfits

end SystemsProjects.Shell
