import SystemsProjects.Shell.Launch

/-!
# The Streams of a Child

What a child has on its descriptors when it runs its program. A redirection and a pipe come
down to one thing: a descriptor is copied to standard input or standard output and given up.

## Main definitions

* `Moved`: a descriptor is copied and given up, or none is.
* `outputSource`, `inputSource`: what `runPipe` copies.

## Main results

* `pipeChild_run`: the branch of the child in `runPipe` comes to its program.
* `redirectChild_run`: so does the one in `runRedirectExternal`.
-/

namespace SystemsProjects.Shell

open Stateful

variable {p p' : Proc} {c : Command Str} {i o : ℤ}

/-- No call of this kind fails. -/
def Proc.Succeeds (p : Proc) (c : Call) : Prop := ∀ n, p.fails c n = false

/-- The descriptor `src`, which refers to `x`, is copied to `dst` and given up. -/
structure Moved (dst : ℕ) (source : Option (ℕ × Open)) (p p' : Proc) : Prop where
  fds : ∀ k, p'.fds.get k = match source with
    | none => p.fds.get k
    | some (src, x) => if k = src then none else if k = dst then some x else p.fds.get k
  fails : p'.fails = p.fails

/-- Where there is no source, nothing is moved. -/
theorem Moved.nothing {dst : ℕ} : Moved dst none p p := ⟨fun _ => rfl, rfl⟩

/-- A descriptor that was not taken away and is not written keeps what it refers to. -/
theorem Moved.get_of_ne {dst k : ℕ} {source : Option (ℕ × Open)} (h : Moved dst source p p')
    (hd : k ≠ dst) (hs : ∀ src ∈ source, k ≠ src.1) : p'.fds.get k = p.fds.get k := by
  rw [h.fds]
  cases source with
  | none => rfl
  | some src =>
      simp only
      rw [if_neg (hs src rfl), if_neg hd]

/-- A descriptor that is not written refers to something behind the copy if it did before,
and it is not the one that is given up. -/
theorem Moved.get_iff {dst k : ℕ} {source : Option (ℕ × Open)} (h : Moved dst source p p')
    (hd : k ≠ dst) {x : Open} :
    p'.fds.get k = some x ↔ p.fds.get k = some x ∧ ∀ src ∈ source, k ≠ src.1 := by
  rw [h.fds]
  cases source with
  | none => simp
  | some src =>
      simp only [Option.mem_some_iff, forall_eq', if_neg hd]
      by_cases hs : k = src.1
      · simp [hs]
      · simp [hs]

/-- The descriptor that is written, where it is not the one that is copied. -/
theorem Moved.get_dst {dst : ℕ} {source : Option (ℕ × Open)} (h : Moved dst source p p')
    (hs : ∀ src ∈ source, dst ≠ src.1) :
    p'.fds.get dst = (source.map Prod.snd).or (p.fds.get dst) := by
  rw [h.fds]
  cases source with
  | none => rfl
  | some src => exact (if_neg (hs src rfl)).trans (if_pos rfl)

/-- `dup2` and `close`, for a descriptor that is open. -/
theorem dup2_close_run {fd : ℕ} {x : Open} (hdup : p.Succeeds .dup2) (hx : p.fds.get fd = some x)
    (dst : ℕ) :
    (do
      let _ ← dup2 fd dst
      close fd) p = .ok () { p.called with fds := (p.fds.set dst (some x)).set fd none } := by
  rw [run_bind_ok (dup2_run (hdup _) (by rwa [Proc.at_natCast]) _), close_run]

/-! ### The branch in `runPipe` -/

/-- What the output of a stage is copied from. -/
def outputSource (o : ℤ) (c : Command Str) (p : Proc) : Option (ℕ × Open) :=
  if o ≠ -1 then (p.at o).map (o.toNat, ·) else c.output.map (p.fds.lowest, .writing ·)

/-- What the input of a stage is copied from. -/
def inputSource (i : ℤ) (c : Command Str) (p : Proc) : Option (ℕ × Open) :=
  if i ≠ -1 then (p.at i).map (i.toNat, ·) else c.input.map (p.fds.lowest, .reading ·)

/-- The files behind the opening of an output file. -/
def writtenFiles (path : Option Str) (p : Proc) : Str → Option File :=
  match path with
  | none => p.files
  | some path => fun q => if q = path then
      some ⟨((p.files path).map File.mode).getD p.created, []⟩ else p.files q

/-- The number given to a function of the child is no descriptor, or one that is open. -/
def Proc.Given (p : Proc) (fd : ℤ) : Prop := fd = -1 ∨ ∃ k : ℕ, fd = k ∧ p.fds.get k ≠ none

/-- The table behind `dup2` and `close`. -/
theorem get_moved (t : Slots Open) (src dst k : ℕ) (x : Open) :
    ((t.set dst (some x)).set src none).get k =
      if k = src then none else if k = dst then some x else t.get k := by
  simp only [Slots.get_set]

/-- The table behind the opening of a file, `dup2` and `close`. -/
theorem get_opened (t : Slots Open) (dst k : ℕ) (x : Open) :
    (((t.set t.lowest (some x)).set dst (some x)).set t.lowest none).get k =
      if k = t.lowest then none else if k = dst then some x else t.get k := by
  simp only [Slots.get_set]
  split
  · rfl
  · rfl

/-- The output of a stage. -/
theorem pipeOutputChild_run (hopen : p.Succeeds .openFile) (hdup : p.Succeeds .dup2)
    (ho : p.Given o) :
    ∃ p', pipeOutputChild o c p = .ok () p' ∧ Moved 1 (outputSource o c p) p p' ∧
      p'.files = writtenFiles (if o ≠ -1 then none else c.output) p := by
  rcases ho with rfl | ⟨w, rfl, hw⟩
  · rw [pipeOutputChild, if_neg (by decide), outputSource, if_neg (by decide),
      if_neg (by decide)]
    cases c.output with
    | none => exact ⟨p, rfl, .nothing, rfl⟩
    | some path =>
        have hneg : ¬ (p.fds.lowest : ℤ) < 0 := by omega
        simp only
        rw [run_bind_ok (openWrite_run (hopen _)), if_neg hneg]
        refine ⟨_, dup2_close_run (by exact hdup) (Slots.get_set_self _ _) 1, ⟨fun k => ?_, rfl⟩,
          rfl⟩
        exact get_opened _ _ _ _
  · obtain ⟨x, hx⟩ := Option.ne_none_iff_exists'.mp hw
    have hne : (w : ℤ) ≠ -1 := by omega
    rw [pipeOutputChild, if_pos hne, outputSource, if_pos hne, if_pos hne, Proc.at_natCast, hx]
    exact ⟨_, dup2_close_run hdup hx 1, ⟨fun k => get_moved _ _ _ _ _, rfl⟩, rfl⟩

/-- The input of a stage. -/
theorem pipeInputChild_run (hopen : p.Succeeds .openFile) (hdup : p.Succeeds .dup2)
    (hi : p.Given i) (hfound : i = -1 → ∀ f ∈ c.input, p.files f ≠ none) :
    ∃ p', pipeInputChild i c p = .ok () p' ∧ Moved 0 (inputSource i c p) p p' ∧
      p'.files = p.files := by
  rcases hi with rfl | ⟨r, rfl, hr⟩
  · rw [pipeInputChild, if_neg (by decide), inputSource, if_neg (by decide)]
    cases hc : c.input with
    | none => exact ⟨p, rfl, .nothing, rfl⟩
    | some path =>
        have hneg : ¬ (p.fds.lowest : ℤ) < 0 := by omega
        simp only
        rw [run_bind_ok (openRead_run (hopen _) (hfound rfl path hc)), if_neg hneg]
        refine ⟨_, dup2_close_run (by exact hdup) (Slots.get_set_self _ _) 0, ⟨fun k => ?_, rfl⟩,
          rfl⟩
        exact get_opened _ _ _ _
  · obtain ⟨x, hx⟩ := Option.ne_none_iff_exists'.mp hr
    have hne : (r : ℤ) ≠ -1 := by omega
    rw [pipeInputChild, if_pos hne, inputSource, if_pos hne, Proc.at_natCast, hx]
    exact ⟨_, dup2_close_run hdup hx 0, ⟨fun k => get_moved _ _ _ _ _, rfl⟩, rfl⟩

/-- A file is there behind the opening of an output file, if it was there before. -/
theorem writtenFiles_ne_none {path : Option Str} {f : Str} (h : p.files f ≠ none) :
    writtenFiles path p f ≠ none := by
  cases path with
  | none => exact h
  | some path =>
      simp only [writtenFiles]
      split
      · nofun
      · exact h

/-- The descriptors that a stage is given. -/
structure Proc.GivenPipes (p : Proc) (i o : ℤ) : Prop where
  input : p.Given i
  output : p.Given o
  ne : i ≠ -1 → i ≠ o

/-- What is copied to standard output is the pipe that is given, or a new descriptor. -/
theorem outputSource_fst (ho : p.Given o) {src : ℕ × Open} (h : outputSource o c p = some src) :
    (src.1 : ℤ) = o ∨ src.1 = p.fds.lowest := by
  rw [outputSource] at h
  split at h
  · rename_i hne
    obtain ⟨x, -, rfl⟩ := Option.map_eq_some_iff.mp h
    obtain ⟨w, rfl, -⟩ := ho.resolve_left hne
    exact .inl rfl
  · obtain ⟨f, -, rfl⟩ := Option.map_eq_some_iff.mp h
    exact .inr rfl

/-- What is copied to standard input is the pipe that is given, or a new descriptor. -/
theorem inputSource_fst (hi : p.Given i) {src : ℕ × Open} (h : inputSource i c p = some src) :
    (src.1 : ℤ) = i ∨ src.1 = p.fds.lowest := by
  rw [inputSource] at h
  split at h
  · rename_i hne
    obtain ⟨x, -, rfl⟩ := Option.map_eq_some_iff.mp h
    obtain ⟨r, rfl, -⟩ := hi.resolve_left hne
    exact .inl rfl
  · obtain ⟨f, -, rfl⟩ := Option.map_eq_some_iff.mp h
    exact .inr rfl

/-- The input that a stage is given is still there behind the output. -/
theorem Proc.GivenPipes.input_of_moved (h : p.GivenPipes i o)
    (hm : Moved 1 (outputSource o c p) p p') : p'.Given i := by
  rcases h.input with rfl | ⟨r, rfl, hr⟩
  · exact .inl rfl
  · refine .inr ⟨r, rfl, ?_⟩
    rw [hm.fds]
    cases hs : outputSource o c p with
    | none => exact hr
    | some src =>
        have hne : r ≠ src.1 := by
          rintro rfl
          rcases outputSource_fst h.output hs with ho | ho
          · exact h.ne (by omega) ho
          · rw [ho, Slots.get_lowest] at hr
            exact hr rfl
        simp only
        rw [if_neg hne]
        split
        · nofun
        · exact hr

/-- The branch of the child in `runPipe` comes to its program. -/
theorem pipeChild_run (hopen : p.Succeeds .openFile) (hdup : p.Succeeds .dup2)
    (hexec : p.Succeeds .execvp) (hgiven : p.GivenPipes i o)
    (hfound : i = -1 → ∀ f ∈ c.input, p.files f ≠ none) :
    ∃ p₁ p', pipeChild i o c p = .error (.exec c.command c.args) p' ∧
      Moved 1 (outputSource o c p) p p₁ ∧ Moved 0 (inputSource i c p₁) p₁ p' ∧
      p'.files = writtenFiles (if o ≠ -1 then none else c.output) p := by
  obtain ⟨p₁, hrun₁, hm₁, hf₁⟩ := pipeOutputChild_run (c := c) hopen hdup hgiven.output
  have hsucc {c : Call} (h : p.Succeeds c) : p₁.Succeeds c := by
    rw [Proc.Succeeds, hm₁.fails]
    exact h
  have hfound₁ : i = -1 → ∀ f ∈ c.input, p₁.files f ≠ none := by
    intro hi f hf
    rw [hf₁]
    exact writtenFiles_ne_none (hfound hi f hf)
  obtain ⟨p', hrun, hm, hf⟩ := pipeInputChild_run (hsucc hopen) (hsucc hdup)
    (hgiven.input_of_moved hm₁) hfound₁
  refine ⟨p₁, p', ?_, hm₁, hm, hf.trans hf₁⟩
  rw [pipeChild, run_bind_ok hrun₁, run_bind_ok hrun]
  refine run_bind_error (execvp_run ?_)
  rw [Proc.failing, hm.fails]
  exact hsucc hexec _

/-! ### The branch in `runRedirectExternal` -/

/-- The stream that is redirected. -/
def Redirect.stream : Redirect → ℕ
  | .input => 0
  | .output => 1

/-- What the new descriptor refers to. -/
def Redirect.opened : Redirect → Str → Open
  | .input, f => .reading f
  | .output, f => .writing f

/-- What is in the file. -/
def Redirect.contents : Redirect → Option File → List ℕ
  | .input, f => (f.map File.contents).getD []
  | .output, _ => []

/-- Behind `open`, with a descriptor on the file. -/
theorem redirectRest_run (hchmod : p.Succeeds .chmod) (hdup : p.Succeeds .dup2)
    (hexec : p.Succeeds .execvp) {path : Str} {f : File} {fd : ℕ} {x : Open}
    (hf : p.files path = some f) (hx : p.fds.get fd = some x) (newfd : ℕ) :
    redirectRest c path fd newfd p = .error (.exec c.command c.args) { p with
      fds := (p.fds.set newfd (some x)).set fd none
      calls := p.calls + 2
      files := fun q => if q = path then some { f with mode := mode0644 } else p.files q } := by
  have hfd : ¬ (fd : ℤ) = -1 := by omega
  have hnew : ¬ (newfd : ℤ) = -1 := by omega
  rw [redirectRest, run_bind_ok (chmod_run (hchmod _) hf _), if_neg (by decide), if_neg hfd]
  refine Eq.trans (run_bind_ok (dup2_run (o := x) (by exact hdup _) ?_ _)) ?_
  · rwa [Proc.at_natCast]
  · rw [if_neg hnew, run_bind_ok (close_run _)]
    exact run_bind_error (execvp_run (hexec _))

/-- The branch of the child in `runRedirectExternal` comes to its program. The file gets the
mode `0644`. -/
theorem redirectChild_run (hopen : p.Succeeds .openFile) (hchmod : p.Succeeds .chmod)
    (hdup : p.Succeeds .dup2) (hexec : p.Succeeds .execvp) {path : Str} {r : Redirect}
    (hfound : r = .input → p.files path ≠ none) :
    ∃ p', redirectChild c path r p = .error (.exec c.command c.args) p' ∧
      Moved r.stream (some (p.fds.lowest, r.opened path)) p p' ∧
      p'.files path = some ⟨mode0644, r.contents (p.files path)⟩ := by
  cases r with
  | input =>
      obtain ⟨f, hf⟩ := Option.ne_none_iff_exists'.mp (hfound rfl)
      rw [redirectChild, run_bind_ok (openRead_run (hopen _) (hfound rfl))]
      refine ⟨_, redirectRest_run (p := p.called.newFd (.reading path)) hchmod hdup hexec hf
        (Slots.get_set_self _ _) 0, ⟨fun k => get_opened _ _ _ _, rfl⟩, ?_⟩
      rw [hf]
      exact if_pos rfl
  | output =>
      rw [redirectChild, run_bind_ok (openWrite_run (hopen _))]
      refine ⟨_, redirectRest_run (p := { p.called.newFd (.writing path) with
          files := writtenFiles (some path) p }) hchmod hdup hexec (if_pos rfl)
        (Slots.get_set_self _ _) 1, ⟨fun k => get_opened _ _ _ _, rfl⟩, if_pos rfl⟩

end SystemsProjects.Shell
