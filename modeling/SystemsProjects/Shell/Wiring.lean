import SystemsProjects.Shell.Children
import SystemsProjects.Shell.Streams

/-!
# How a Pipeline Is Wired

The children of a pipeline, as they come to their programs: the output of each one and the
input of the next are the two ends of a pipe that was made for them.

## Main definitions

* `StageChild`: what a child of a pipeline starts with.
* `Child.AtProgram`: a child comes to its program.
* `Wired`: the children of a line are joined by pipes.

## Main results

* `stageChild_of_get`: the children that the loop forks.
* `StageChild.streams`: their standard input and standard output.
* `pipeline_wired`: a pipeline is wired.
* `stray_ends`: in every pipeline a child has a pipe end that it does not need.
-/

namespace SystemsProjects.Shell

open Stateful

variable {s : ShellState} {c d : Command Str} {cs : List (Command Str)} {a : Child}
variable {i o : Option ℕ} {p p' : Proc}

/-! ### What a child starts with -/

/-- A number that is given to a stage: it stands for no descriptor, or for one that refers
to `x`. -/
def Refers (t : Slots Open) (fd : ℤ) : Option Open → Prop
  | none => fd = -1
  | some x => ∃ k : ℕ, fd = k ∧ t.get k = some x

/-- A child that is given the read end of the pipe `i` and the write end of the pipe `o`, and
has what the shell had in front of the line and ends of new pipes. -/
structure StageChild (s : ShellState) (i o : Option ℕ) (c : Command Str) (a : Child) :
    Prop where
  launch : ∃ r w : ℤ, a.launch = .pipe r w c ∧ Refers a.fds r (i.map .pipeRead) ∧
    Refers a.fds w (o.map .pipeWrite)
  kept : ∀ k, s.fds.get k ≠ none → a.fds.get k = s.fds.get k
  only : ∀ k x, a.fds.get k = some x → s.fds.get k = some x ∨ ∃ q ∈ x.pipe?, s.pipes ≤ q

/-- What is in use keeps its place when a pipe is made. -/
theorem get_piped_of_used {k : ℕ} (h : s.fds.get k ≠ none) : s.piped.fds.get k = s.fds.get k := by
  have hw : k ≠ s.writeEnd := by
    rintro rfl
    exact h s.get_writeEnd
  have hr : k ≠ s.readEnd := by
    rintro rfl
    exact h s.get_readEnd
  rw [ShellState.get_piped, if_neg hw, if_neg hr]

/-- The child of a stage with a new pipe. -/
theorem stageChild_piped {r : ℤ} (hr : Refers s.fds r (i.map .pipeRead)) (c : Command Str) :
    StageChild s i (some s.pipes) c (s.piped.child (.pipe r s.writeEnd c)) where
  launch := by
    refine ⟨r, s.writeEnd, rfl, ?_, s.writeEnd, rfl, ?_⟩
    · cases i with
      | none => exact hr
      | some q =>
          obtain ⟨k, rfl, hk⟩ := hr
          exact ⟨k, rfl, (get_piped_of_used (by rw [hk]; nofun)).trans hk⟩
    · exact (s.get_piped _).trans (if_pos rfl)
  kept := fun _ => get_piped_of_used
  only := by
    intro k x (hx : s.piped.fds.get k = some x)
    rw [ShellState.get_piped] at hx
    split at hx
    · cases hx
      exact .inr ⟨s.pipes, rfl, Nat.le_refl _⟩
    · split at hx
      · cases hx
        exact .inr ⟨s.pipes, rfl, Nat.le_refl _⟩
      · exact .inl hx

/-- A child of the rest of the line. -/
theorem StageChild.of_spawned {l : Launch} (h : StageChild (s.spawned l) i o c a) :
    StageChild s i o c a where
  launch := h.launch
  kept := by
    intro k hk
    have hsp := ShellState.get_spawned_of_used hk l
    rw [h.kept k (by rwa [hsp]), hsp]
  only := by
    intro k x hx
    rcases h.only k x hx with hx | ⟨q, hq, hle⟩
    · rw [ShellState.get_spawned] at hx
      split at hx
      · cases hx
        exact .inr ⟨s.pipes, rfl, Nat.le_refl _⟩
      · exact .inl hx
    · exact .inr ⟨q, hq, Nat.le_of_succ_le hle⟩

/-- The children that the loop forks: the pipes are numbered in order. -/
theorem stageChild_of_get {r : ℤ} (hr : Refers s.fds r (i.map .pipeRead)) {j : ℕ}
    (hc : cs[j]? = some c) (ha : (stageChildren r s cs)[j]? = some a) :
    StageChild s (if j = 0 then i else some (s.pipes + (j - 1)))
      (if j + 1 < cs.length then some (s.pipes + j) else none) c a := by
  induction cs generalizing s r i j with
  | nil => cases hc
  | cons e rest ih =>
      cases rest with
      | nil =>
          cases j with
          | zero =>
              cases hc
              cases ha
              exact ⟨⟨r, -1, rfl, hr, rfl⟩, fun _ _ => rfl, fun _ _ => .inl⟩
          | succ j => cases hc
      | cons d rest =>
          cases j with
          | zero =>
              cases hc
              cases ha
              rw [if_pos rfl, if_pos (by simp)]
              exact stageChild_piped hr c
          | succ j =>
              have hnext : Refers (s.spawned (.pipe r s.writeEnd e)).fds s.readEnd
                  ((some s.pipes).map .pipeRead) :=
                ⟨s.readEnd, rfl, (s.get_spawned _ _).trans (if_pos rfl)⟩
              have hih := (ih hnext hc ha).of_spawned
              rw [ShellState.pipes_spawned] at hih
              have hi : (if j = 0 then some s.pipes else some (s.pipes + 1 + (j - 1))) =
                  if j + 1 = 0 then i else some (s.pipes + (j + 1 - 1)) := by
                rw [if_neg (Nat.succ_ne_zero j)]
                split
                · rename_i hj
                  subst hj
                  rfl
                · congr 1
                  omega
              rw [hi] at hih
              simpa only [List.length_cons, Nat.add_lt_add_iff_right, Nat.add_assoc,
                Nat.add_comm 1] using hih

/-! ### What a child runs its program with -/

/-- Standard input of a stage: the pipe `i`, or the input file, or what the shell has. -/
def standardInput (s : ShellState) (i : Option ℕ) (c : Command Str) : Option Open :=
  ((i.map .pipeRead).or (c.input.map .reading)).or (s.fds.get 0)

/-- Standard output of a stage: the pipe `o`, or the output file, or what the shell has. -/
def standardOutput (s : ShellState) (o : Option ℕ) (c : Command Str) : Option Open :=
  ((o.map .pipeWrite).or (c.output.map .writing)).or (s.fds.get 1)

/-- A descriptor on a new pipe is none that the shell had in use. -/
theorem StageChild.not_used (h : StageChild s i o c a) {k q : ℕ} {x : Open}
    (hx : a.fds.get k = some x) (hq : q ∈ x.pipe?) (hnew : s.pipes ≤ q) :
    s.fds.get k = none := by
  by_contra hk
  have hle := s.made k x (by rw [← h.kept k hk, hx]) q hq
  exact absurd hle (Nat.not_lt_of_le hnew)

/-- A number that refers to an end of a pipe, or to nothing, is one the child can be given. -/
theorem Refers.given {r : ℤ} {x : Option Open} (h : Refers p.fds r x) : p.Given r := by
  cases x with
  | none => exact .inl h
  | some x =>
      obtain ⟨k, hk, hx⟩ := h
      exact .inr ⟨k, hk, by rw [hx]; nofun⟩

/-- A pipe is copied before an output file. -/
theorem outputSource_snd {w : ℤ} (h : Refers p.fds w (o.map .pipeWrite)) :
    (outputSource w c p).map Prod.snd = (o.map .pipeWrite).or (c.output.map .writing) := by
  cases o with
  | none =>
      obtain rfl : w = -1 := h
      rw [outputSource, if_neg (by decide), Option.map_map]
      rfl
  | some q =>
      obtain ⟨k, rfl, hk⟩ := h
      rw [outputSource, if_pos (by omega), Proc.at_natCast, hk]
      rfl

/-- A pipe is copied before an input file. -/
theorem inputSource_snd {r : ℤ} (h : Refers p.fds r (i.map .pipeRead)) :
    (inputSource r c p).map Prod.snd = (i.map .pipeRead).or (c.input.map .reading) := by
  cases i with
  | none =>
      obtain rfl : r = -1 := h
      rw [inputSource, if_neg (by decide), Option.map_map]
      rfl
  | some q =>
      obtain ⟨k, rfl, hk⟩ := h
      rw [inputSource, if_pos (by omega), Proc.at_natCast, hk]
      rfl

/-- A new pipe is on descriptors behind the streams. -/
theorem StageChild.pipe_ne (h : StageChild s i o c a) (hin : s.fds.get 0 ≠ none)
    (hout : s.fds.get 1 ≠ none) {fd : ℤ} {x : Option Open} (hfd : Refers a.fds fd x)
    (hx : ∀ y ∈ x, ∃ q ∈ y.pipe?, s.pipes ≤ q) : fd ≠ 0 ∧ fd ≠ 1 := by
  cases x with
  | none =>
      obtain rfl : fd = -1 := hfd
      decide
  | some y =>
      obtain ⟨k, rfl, hk⟩ := hfd
      obtain ⟨q, hq, hle⟩ := hx y rfl
      have hfree := h.not_used hk hq hle
      constructor
      · intro h0
        obtain rfl : k = 0 := by omega
        exact hin hfree
      · intro h1
        obtain rfl : k = 1 := by omega
        exact hout hfree

/-- What is copied is none of the streams, where these are in use. -/
theorem source_ne {fd : ℤ} {src : ℕ × Open} (h : (src.1 : ℤ) = fd ∨ src.1 = p.fds.lowest)
    (hne : fd ≠ 0 ∧ fd ≠ 1) (hin : p.fds.get 0 ≠ none) (hout : p.fds.get 1 ≠ none) :
    0 ≠ src.1 ∧ 1 ≠ src.1 := by
  rcases h with h | h
  · omega
  · rw [h]
    exact ⟨(Slots.lowest_ne _ hin).symm, (Slots.lowest_ne _ hout).symm⟩

/-- The two ends of pipes that a stage is given. -/
theorem Refers.givenPipes {r w : ℤ} (hr : Refers p.fds r (i.map .pipeRead))
    (hw : Refers p.fds w (o.map .pipeWrite)) : p.GivenPipes r w := by
  refine ⟨hr.given, hw.given, ?_⟩
  rintro hne rfl
  cases i with
  | none => exact hne hr
  | some q =>
      cases o with
      | none => exact hne hw
      | some q' =>
          obtain ⟨k, hk, hget⟩ := hr
          obtain ⟨k', hk', hget'⟩ := hw
          obtain rfl : k = k' := by omega
          cases hget.symm.trans hget'

/-- The input end is where it was behind the output. -/
theorem Refers.of_moved {r w : ℤ} (hr : Refers p.fds r (i.map .pipeRead))
    (hw : Refers p.fds w (o.map .pipeWrite)) (hne : r ≠ 1)
    (hm : Moved 1 (outputSource w c p) p p') : Refers p'.fds r (i.map .pipeRead) := by
  have hgiven := hr.givenPipes hw
  cases i with
  | none => exact hr
  | some q =>
      obtain ⟨k, rfl, hk⟩ := hr
      refine ⟨k, rfl, (hm.get_of_ne (by omega) fun src hsrc => ?_).trans hk⟩
      rintro rfl
      rcases outputSource_fst hw.given hsrc with h | h
      · exact hgiven.ne (by omega) h
      · rw [h, Slots.get_lowest] at hk
        cases hk

/-- The children of a pipeline in a shell that has standard input and standard output: they
come to their programs, with their streams on the pipes they were given. -/
theorem StageChild.streams (h : StageChild s i o c a) (hi : ∀ q ∈ i, s.pipes ≤ q)
    (ho : ∀ q ∈ o, s.pipes ≤ q) (hin : s.fds.get 0 ≠ none) (hout : s.fds.get 1 ≠ none)
    (hp : p.fds = a.fds) (hopen : p.Succeeds .openFile) (hdup : p.Succeeds .dup2)
    (hexec : p.Succeeds .execvp) (hfound : i = none → ∀ f ∈ c.input, p.files f ≠ none) :
    ∃ p', a.launch.code p = .error (.exec c.command c.args) p' ∧
      p'.fds.get 0 = standardInput s i c ∧ p'.fds.get 1 = standardOutput s o c := by
  obtain ⟨r, w, hl, hr, hw⟩ := h.launch
  have hr1 : r ≠ 0 ∧ r ≠ 1 := h.pipe_ne hin hout hr fun y hy => by
    obtain ⟨q, hq, rfl⟩ := Option.map_eq_some_iff.mp hy
    exact ⟨q, rfl, hi q hq⟩
  have hw1 : w ≠ 0 ∧ w ≠ 1 := h.pipe_ne hin hout hw fun y hy => by
    obtain ⟨q, hq, rfl⟩ := Option.map_eq_some_iff.mp hy
    exact ⟨q, rfl, ho q hq⟩
  rw [← hp] at hr hw
  have hget0 : p.fds.get 0 = s.fds.get 0 := by rw [hp, h.kept 0 hin]
  have hget1 : p.fds.get 1 = s.fds.get 1 := by rw [hp, h.kept 1 hout]
  have hfound' : r = -1 → ∀ f ∈ c.input, p.files f ≠ none := by
    rintro rfl
    cases i with
    | none => exact hfound rfl
    | some q =>
        obtain ⟨k, hk, -⟩ := hr
        omega
  obtain ⟨p₁, p', hrun, hm, hm', -⟩ := pipeChild_run (c := c) hopen hdup hexec
    (hr.givenPipes hw) hfound'
  have hsrc (src) (hsrc : src ∈ outputSource w c p) :=
    source_ne (outputSource_fst hw.given hsrc) hw1 (by rwa [hget0]) (by rwa [hget1])
  have hin₁ : p₁.fds.get 0 = s.fds.get 0 := by
    rw [hm.get_of_ne (by decide) fun src h => (hsrc src h).1, hget0]
  have hout₁ : p₁.fds.get 1 = standardOutput s o c := by
    rw [hm.get_dst fun src h => (hsrc src h).2, outputSource_snd hw, hget1, standardOutput]
  have hr' := hr.of_moved hw hr1.2 hm
  have hout₁' : p₁.fds.get 1 ≠ none := by
    rw [hout₁, standardOutput]
    intro h
    exact hout (Option.or_eq_none_iff.mp h).2
  have hsrc' (src) (hsrc : src ∈ inputSource r c p₁) :=
    source_ne (inputSource_fst hr'.given hsrc) hr1 (by rwa [hin₁]) hout₁'
  refine ⟨p', by rw [hl]; exact hrun, ?_, ?_⟩
  · rw [hm'.get_dst fun src h => (hsrc' src h).1, inputSource_snd hr', hin₁, standardInput]
  · rw [hm'.get_of_ne (by decide) fun src h => (hsrc' src h).2, hout₁]

/-! ### The line -/

/-- The process `p` runs the branch of a child, and `open`, `dup2` and `execvp` succeed. It
starts with the descriptors of the fork, and the input file that it opens is there. -/
structure Child.Willing (a : Child) (p : Proc) : Prop where
  fds : p.fds = a.fds
  openFile : p.Succeeds .openFile
  dup2 : p.Succeeds .dup2
  execvp : p.Succeeds .execvp
  found : ∀ f ∈ a.launch.inputFile, p.files f ≠ none

/-- A child, whose calls succeed, as it comes to its program. This is when it is settled what it
reads and writes. -/
def Child.AtProgram (a : Child) (p' : Proc) : Prop :=
  ∃ p, a.Willing p ∧
    a.launch.code p = .error (.exec a.launch.cmd.command a.launch.cmd.args) p'

/-- The children of a line are joined by pipes, each of which is on one standard output and
one standard input only; the first one reads its input file or what the shell reads, and the
last one writes its output file or what the shell writes. -/
structure Wired (s : ShellState) (l : List Child) : Prop where
  runs : ∀ a ∈ l, ∀ p, a.Willing p → ∃ p', a.AtProgram p' ∧
    a.launch.code p = .error (.exec a.launch.cmd.command a.launch.cmd.args) p'
  first : ∀ a p', l.head? = some a → a.AtProgram p' →
    p'.fds.get 0 = (a.launch.cmd.input.map .reading).or (s.fds.get 0)
  last : ∀ a p', l.getLast? = some a → a.AtProgram p' →
    p'.fds.get 1 = (a.launch.cmd.output.map .writing).or (s.fds.get 1)
  joined : ∀ k a b, l[k]? = some a → l[k + 1]? = some b → ∃ q,
    (∀ p', a.AtProgram p' → p'.fds.get 1 = some (.pipeWrite q)) ∧
    (∀ p', b.AtProgram p' → p'.fds.get 0 = some (.pipeRead q)) ∧
    ∀ j e p' x, l[j]? = some e → e.AtProgram p' →
      (j ≠ k + 1 → p'.fds.get 0 = some x → q ∉ x.pipe?) ∧
      (j ≠ k → p'.fds.get 1 = some x → q ∉ x.pipe?)

/-- The child of a stage has the command of the stage. -/
theorem StageChild.cmd (h : StageChild s i o c a) : a.launch.cmd = c := by
  obtain ⟨_, _, hl, -⟩ := h.launch
  rw [hl]
  rfl

/-- The first child of a line finds its input file. -/
theorem StageChild.found (h : StageChild s i o c a) (hw : a.Willing p) (hi : i = none) :
    ∀ f ∈ c.input, p.files f ≠ none := by
  obtain ⟨r, w, hl, hr, -⟩ := h.launch
  subst hi
  obtain rfl : r = -1 := hr
  intro f hf
  refine hw.found f ?_
  rw [hl]
  exact hf

/-- The streams of a child of a pipeline, at its program. -/
theorem StageChild.streams_of_atProgram (h : StageChild s i o c a) (hi : ∀ q ∈ i, s.pipes ≤ q)
    (ho : ∀ q ∈ o, s.pipes ≤ q) (hin : s.fds.get 0 ≠ none) (hout : s.fds.get 1 ≠ none)
    (hp : a.AtProgram p') :
    p'.fds.get 0 = standardInput s i c ∧ p'.fds.get 1 = standardOutput s o c := by
  obtain ⟨p, hw, hcode⟩ := hp
  obtain rfl := h.cmd
  obtain ⟨t, hrun, hstreams⟩ := h.streams hi ho hin hout hw.fds hw.openFile hw.dup2 hw.execvp
    (h.found hw)
  cases hcode.symm.trans hrun
  exact hstreams

/-- The input of a stage is on no new pipe but its own. -/
theorem pipe_of_standardInput {x : Open} {q : ℕ} (h : standardInput s i c = some x)
    (hq : q ∈ x.pipe?) : i = some q ∨ q < s.pipes := by
  cases i with
  | some q' =>
      cases h
      exact .inl hq
  | none =>
      rcases Option.or_eq_some_iff.mp h with h | ⟨-, h⟩
      · obtain ⟨f, -, rfl⟩ := Option.map_eq_some_iff.mp h
        cases hq
      · exact .inr (s.made 0 x h q hq)

/-- The output of a stage is on no new pipe but its own. -/
theorem pipe_of_standardOutput {x : Open} {q : ℕ} (h : standardOutput s o c = some x)
    (hq : q ∈ x.pipe?) : o = some q ∨ q < s.pipes := by
  cases o with
  | some q' =>
      cases h
      exact .inl hq
  | none =>
      rcases Option.or_eq_some_iff.mp h with h | ⟨-, h⟩
      · obtain ⟨f, -, rfl⟩ := Option.map_eq_some_iff.mp h
        cases hq
      · exact .inr (s.made 1 x h q hq)

/-- The pipe that a stage reads, in a line of its own. -/
def inputPipe (s : ShellState) (j : ℕ) : Option ℕ :=
  if j = 0 then none else some (s.pipes + (j - 1))

/-- The pipe that a stage of `n` stages writes. -/
def outputPipe (s : ShellState) (n j : ℕ) : Option ℕ :=
  if j + 1 < n then some (s.pipes + j) else none

/-- The children of a line. -/
theorem stageChild_of_line {j : ℕ} (ha : (stageChildren (-1) s cs)[j]? = some a) :
    StageChild s (inputPipe s j) (outputPipe s cs.length j) a.launch.cmd a := by
  have hj : j < cs.length := by
    rw [← length_stageChildren (-1) s cs]
    exact (List.getElem?_eq_some_iff.mp ha).1
  have hs := stageChild_of_get (i := none) (r := -1) rfl (List.getElem?_eq_getElem hj) ha
  rw [← hs.cmd] at hs
  exact hs

/-- The pipe that a stage reads is one of those made for the line. -/
theorem le_of_inputPipe {j q : ℕ} (h : q ∈ inputPipe s j) : s.pipes ≤ q := by
  rw [inputPipe] at h
  split at h
  · cases h
  · cases h
    exact Nat.le_add_right _ _

/-- The pipe that a stage writes is one of those made for the line. -/
theorem le_of_outputPipe {n j q : ℕ} (h : q ∈ outputPipe s n j) : s.pipes ≤ q := by
  rw [outputPipe] at h
  split at h
  · cases h
    exact Nat.le_add_right _ _
  · cases h

/-- The streams of a child of a line. -/
theorem streams_of_line (hin : s.fds.get 0 ≠ none) (hout : s.fds.get 1 ≠ none) {j : ℕ}
    (ha : (stageChildren (-1) s cs)[j]? = some a) (hp : a.AtProgram p') :
    p'.fds.get 0 = standardInput s (inputPipe s j) a.launch.cmd ∧
      p'.fds.get 1 = standardOutput s (outputPipe s cs.length j) a.launch.cmd := by
  exact (stageChild_of_line ha).streams_of_atProgram (fun _ => le_of_inputPipe)
    (fun _ => le_of_outputPipe) hin hout hp

/-- The children that the loop forks are wired. -/
theorem wired_stageChildren (hin : s.fds.get 0 ≠ none) (hout : s.fds.get 1 ≠ none)
    (cs : List (Command Str)) : Wired s (stageChildren (-1) s cs) where
  runs := by
    intro a ha p hw
    obtain ⟨j, hj⟩ := List.mem_iff_getElem?.mp ha
    obtain ⟨p', hrun, -⟩ := (stageChild_of_line hj).streams (fun _ => le_of_inputPipe)
      (fun _ => le_of_outputPipe) hin hout hw.fds hw.openFile hw.dup2 hw.execvp
      ((stageChild_of_line hj).found hw)
    exact ⟨p', ⟨p, hw, hrun⟩, hrun⟩
  first := by
    intro a p' ha hp
    rw [List.head?_eq_getElem?] at ha
    exact (streams_of_line hin hout ha hp).1
  last := by
    intro a p' ha hp
    rw [List.getLast?_eq_getElem?, length_stageChildren] at ha
    have hstreams := (streams_of_line hin hout ha hp).2
    rwa [outputPipe, if_neg (by omega)] at hstreams
  joined := by
    intro k a b ha hb
    have hk : k + 1 < cs.length := by
      rw [← length_stageChildren (-1) s cs]
      exact (List.getElem?_eq_some_iff.mp hb).1
    refine ⟨s.pipes + k, fun p' hp => ?_, fun p' hp => ?_, fun j e p' x he hp => ⟨?_, ?_⟩⟩
    · have hstreams := (streams_of_line hin hout ha hp).2
      rwa [outputPipe, if_pos hk] at hstreams
    · exact (streams_of_line hin hout hb hp).1
    · intro hne hx hq
      rw [(streams_of_line hin hout he hp).1] at hx
      rcases pipe_of_standardInput hx hq with h | h
      · rw [inputPipe] at h
        split at h
        · cases h
        · have := Option.some.inj h
          omega
      · omega
    · intro hne hx hq
      rw [(streams_of_line hin hout he hp).2] at hx
      rcases pipe_of_standardOutput hx hq with h | h
      · rw [outputPipe] at h
        split at h
        · have := Option.some.inj h
          omega
        · cases h
      · omega

/-- A line of two commands or more, and no more than there is room for in `childPids`, is wired:
neighbours share a pipe that nobody else has, and the two ends of the line are the files of
their commands or what the shell has. -/
theorem pipeline_wired (h : Calm s) (tokens : List Str) (pipeFD : ℤ × ℤ)
    (hcs : commandsOf id s.heap.cells s.heap.size tokens = cs) (hlen : 2 ≤ cs.length)
    (hmax : cs.length ≤ 32) (hne : ∀ c ∈ cs, c.command ≠ none)
    (hstd : ∀ k < 3, s.fds.get k ≠ none) :
    ∃ x s' l, runCommands tokens pipeFD s = .ok x s' ∧ s'.children = s.children ++ l ∧
      l.map (fun a => a.launch.cmd.unlinked) = cs ∧ Wired s l := by
  have hends := runCommands_ends h hcs hlen hne pipeFD
  cases hrun : runCommands tokens pipeFD s with
  | error e s' => exact absurd hmax (Nat.not_le_of_lt (hends.error hrun).2)
  | ok x s' =>
  have hline := (hends.ok hrun).1
  obtain ⟨mem, cs', hmap, hchildren⟩ := hline.children
  have hwired := wired_stageChildren (s := { s with heap := mem }) (hstd 0 (by decide))
    (hstd 1 (by decide)) cs'
  refine ⟨x, s', _, rfl, hchildren, ?_, hwired.runs, hwired.first, hwired.last, hwired.joined⟩
  rw [unlinked_stageChildren, hmap]

/-- The line `a | b`, in a shell that has just been started. -/
theorem wired_two :
    ∃ x s' l, runCommands [['a'], ['|'], ['b']] (0, 0) started = .ok x s' ∧
      s'.children = started.children ++ l ∧
      l.map (fun a => a.launch.cmd.unlinked) = [bare ['a'], bare ['b']] ∧ Wired started l :=
  pipeline_wired calm_started _ _
    (by simp [commandsOf, fill, splitter, setter, isOperator, Command.init, started, bare])
    (by decide) (by decide) (by decide) (by decide)

/-! ### Pipe ends that a child does not need -/

/-- Every child of the line comes to its program with pipes on its streams only. A writer that
keeps a read end is not told when the reader is gone. -/
def NoStrayEnds (s s' : ShellState) : Prop :=
  ∀ a ∈ s'.children.drop s.children.length, ∀ p', a.AtProgram p' →
    ∀ k x, p'.fds.get k = some x → x.pipe? ≠ none → k = 0 ∨ k = 1

/-- A stage keeps what it does not know of. -/
theorem pipeChild_keeps {r w : ℤ} {p₁ : Proc} {k : ℕ} (hg : p.GivenPipes r w)
    (hm : Moved 1 (outputSource w c p) p p₁) (hm' : Moved 0 (inputSource r c p₁) p₁ p')
    (hk : p.fds.get k ≠ none) (hstd : k ≠ 0 ∧ k ≠ 1) (hr : (k : ℤ) ≠ r) (hw : (k : ℤ) ≠ w) :
    p'.fds.get k = p.fds.get k := by
  have h₁ : p₁.fds.get k = p.fds.get k := by
    refine hm.get_of_ne hstd.2 fun src hsrc => ?_
    rintro rfl
    rcases outputSource_fst hg.output hsrc with h | h
    · exact hw h
    · exact hk (by rw [h, Slots.get_lowest])
  rw [← h₁] at hk ⊢
  refine hm'.get_of_ne hstd.1 fun src hsrc => ?_
  rintro rfl
  rcases inputSource_fst (hg.input_of_moved hm) hsrc with h | h
  · exact hr h
  · exact hk (by rw [h, Slots.get_lowest])

/-- The first child of a line runs its program with the read end of the pipe it writes to. -/
theorem first_child_stray (hin : s.fds.get 0 ≠ none) (hout : s.fds.get 1 ≠ none)
    (c : Command Str) :
    ∃ p', (s.piped.child (.pipe (-1) s.writeEnd c)).AtProgram p' ∧
      p'.fds.get s.readEnd = some (.pipeRead s.pipes) := by
  let p : Proc := ⟨s.piped.fds, fun _ => some ⟨0, []⟩, 0, fun _ _ => false, 0⟩
  have hsucc (c : Call) : p.Succeeds c := fun _ => rfl
  have hread : p.fds.get s.readEnd = some (.pipeRead s.pipes) := by
    refine (s.get_piped _).trans ?_
    rw [if_neg (Ne.symm s.writeEnd_ne), if_pos rfl]
  have hwrite : p.fds.get s.writeEnd = some (.pipeWrite s.pipes) :=
    (s.get_piped _).trans (if_pos rfl)
  have hgiven : p.GivenPipes (-1) s.writeEnd :=
    ⟨.inl rfl, .inr ⟨_, rfl, by rw [hwrite]; nofun⟩, fun h => absurd rfl h⟩
  obtain ⟨p₁, p', hrun, hm, hm', -⟩ := pipeChild_run (c := c) (hsucc _) (hsucc _) (hsucc _)
    hgiven fun _ _ _ => nofun
  refine ⟨p', ⟨p, ⟨rfl, hsucc _, hsucc _, hsucc _, fun _ _ => nofun⟩, hrun⟩, ?_⟩
  have hne : s.readEnd ≠ s.writeEnd := Ne.symm s.writeEnd_ne
  have h0 : s.readEnd ≠ 0 := fun h => hin (h ▸ s.get_readEnd)
  have h1 : s.readEnd ≠ 1 := fun h => hout (h ▸ s.get_readEnd)
  rw [pipeChild_keeps hgiven hm hm' (by rw [hread]; nofun) ⟨h0, h1⟩ (by omega) (by omega), hread]

/-- However the loop is left, the first child is among those it has forked. -/
theorem not_noStrayEnds {s' : ShellState} (hfds : ∀ k, s.fds.get k ≠ none ↔ k < 3)
    {mem : Heap Str} (hst : Staged s.readEnd cs
      ({ s with heap := mem }.spawned (.pipe (-1) s.writeEnd c)) s') : ¬ NoStrayEnds s s' := by
  intro hno
  have hin : s.fds.get 0 ≠ none := (hfds 0).mpr (by decide)
  have hout : s.fds.get 1 ≠ none := (hfds 1).mpr (by decide)
  obtain ⟨l, -, hl⟩ := hst.forked
  obtain ⟨p', hp', hget⟩ := first_child_stray hin hout c
  have hmem : s.piped.child (.pipe (-1) s.writeEnd c) ∈ s'.children.drop s.children.length := by
    rw [hl, ShellState.children_spawned, List.append_assoc, List.drop_left]
    exact List.mem_cons_self
  have hr : s.readEnd = 0 ∨ s.readEnd = 1 := hno _ hmem p' hp' _ _ hget nofun
  rcases hr with hr | hr
  · exact hin (hr ▸ s.get_readEnd)
  · exact hout (hr ▸ s.get_readEnd)

/-- A line of two commands or more, of which the first is run. -/
theorem pipeline_stray (h : Calm s) {tokens : List Str}
    (hcs : commandsOf id s.heap.cells s.heap.size tokens = c :: d :: cs) (hc : c.command ≠ none)
    (hfds : ∀ k, s.fds.get k ≠ none ↔ k < 3) (pipeFD : ℤ × ℤ) :
    ¬ Ends (runCommands tokens pipeFD) s (fun _ s' => NoStrayEnds s s')
      (fun _ s' => NoStrayEnds s s') := by
  obtain ⟨c', d', cs', mem, -, hends⟩ := runCommands_pipeline h hcs hc pipeFD
  refine hends.not ?_ fun e s' hst => not_noStrayEnds hfds hst.1
  rintro x s' ⟨t, hst, hret⟩
  have hno := not_noStrayEnds hfds hst
  rcases hret with ⟨-, rfl⟩ | ⟨v', -, rfl⟩
  · exact hno
  · exact hno

/-- In a shell with the three standard descriptors, every line of two or more commands has a
child with a pipe end that it does not need, since every writer keeps the read end of its own
pipe. -/
theorem stray_ends (h : Calm s) (tokens : List Str) (pipeFD : ℤ × ℤ)
    (hcs : commandsOf id s.heap.cells s.heap.size tokens = cs) (hlen : 2 ≤ cs.length)
    (hne : ∀ c ∈ cs, c.command ≠ none) (hfds : ∀ k, s.fds.get k ≠ none ↔ k < 3) :
    ¬ Ends (runCommands tokens pipeFD) s (fun _ s' => NoStrayEnds s s')
      (fun _ s' => NoStrayEnds s s') := by
  match cs, hlen with
  | c :: d :: cs, _ => exact pipeline_stray h hcs (hne c List.mem_cons_self) hfds pipeFD

/-- Just the standard descriptors. -/
theorem get_standard (k : ℕ) : standard.get k ≠ none ↔ k < 3 := by
  match k with
  | 0 | 1 | 2 => exact iff_of_true nofun (by decide)
  | k + 3 => exact iff_of_false (fun h => h rfl) (by omega)

/-- The line `a | b`, in a shell that has just been started. -/
theorem stray_two : ¬ Ends (runCommands [['a'], ['|'], ['b']] (0, 0)) started
    (fun _ s' => NoStrayEnds started s') (fun _ s' => NoStrayEnds started s') := by
  have hcs : commandsOf id started.heap.cells started.heap.size [['a'], ['|'], ['b']] =
      [bare ['a'], bare ['b']] := by
    simp [commandsOf, fill, splitter, setter, isOperator, Command.init, started, bare]
  exact stray_ends calm_started _ _ hcs (by decide) (by decide) get_standard

/-- The line `a | b` again: not every line is without stray ends. -/
theorem not_noStrayEnds_always : ¬ ∀ (s : ShellState) (tokens : List Str) (pipeFD : ℤ × ℤ),
    Calm s → (∀ k, s.fds.get k ≠ none ↔ k < 3) →
    2 ≤ (commandsOf id s.heap.cells s.heap.size tokens).length →
    (∀ c ∈ commandsOf id s.heap.cells s.heap.size tokens, c.command ≠ none) →
    Ends (runCommands tokens pipeFD) s (fun _ s' => NoStrayEnds s s')
      (fun _ s' => NoStrayEnds s s') := by
  intro h
  have hcs : commandsOf id started.heap.cells started.heap.size [['a'], ['|'], ['b']] =
      [bare ['a'], bare ['b']] := by
    simp [commandsOf, fill, splitter, setter, isOperator, Command.init, started, bare]
  refine pipeline_stray calm_started hcs (Option.some_ne_none _) get_standard (0, 0) ?_
  refine h started [['a'], ['|'], ['b']] (0, 0) calm_started get_standard ?_ ?_
  · rw [hcs]
    decide
  · rw [hcs]
    decide

end SystemsProjects.Shell
