import SystemsProjects.Shell.Alone
import SystemsProjects.Shell.Wiring

/-!
# Redirections

Which redirections a child runs its program with. `runRedirectExternal` looks at one of the
two files only, and sets the mode of the one it opens; `runPipe` looks at a file only where
there is no pipe.

## Main definitions

* `Honoured`: the files of a command are on its streams.
* `Redirects`: when they are, from where the command stands in its line.

## Main results

* `pipeChild_honoured_iff`, `redirectChild_honoured_iff`: the two branches.
* `honoured_iff`: the children of a line.
-/

namespace SystemsProjects.Shell

open Stateful

variable {s : ShellState} {c d : Command Str} {cs : List (Command Str)} {a : Child}
variable {i o : Option ℕ} {p p' p₁ : Proc} {r w : ℤ}

/-- The files of a command are on its streams: the output file is there, and empty, and the
input file has the mode it had. -/
structure Honoured (c : Command Str) (p p' : Proc) : Prop where
  input : ∀ f ∈ c.input, p'.fds.get 0 = some (.reading f)
  mode : ∀ f ∈ c.input, (p'.files f).map File.mode = (p.files f).map File.mode
  output : ∀ f ∈ c.output, p'.fds.get 1 = some (.writing f)
  emptied : ∀ f ∈ c.output, ∃ mode, p'.files f = some ⟨mode, []⟩

/-- A file that a child has opened. -/
def Open.isFile : Open → Bool
  | reading _ | writing _ => true
  | _ => false

/-- No descriptor refers to a file that a child has opened. Otherwise a file could be on a
stream before it is opened. -/
def Unredirected (t : Slots Open) : Prop := ∀ k x, t.get k = some x → x.isFile = false

/-! ### The branch in `runPipe` -/

/-- Without a pipe the number that is given as input stands for no descriptor, and otherwise
for one that is on no input file. -/
def InputGiven (t : Slots Open) (r : ℤ) (i : Option ℕ) : Prop :=
  (i = none ∧ r = -1) ∨
    (i ≠ none ∧ ∃ (k : ℕ) (x : Open), r = k ∧ t.get k = some x ∧ ∀ f, x ≠ .reading f)

/-- Behind the output, the input is given as before, or standard output is. -/
theorem Refers.inputGiven (hr : Refers p.fds r (i.map .pipeRead))
    (hw : Refers p.fds w (o.map .pipeWrite)) (hm : Moved 1 (outputSource w c p) p p₁) :
    InputGiven p₁.fds r i := by
  cases i with
  | none => exact .inl ⟨rfl, hr⟩
  | some q =>
      have hgiven := (hr.givenPipes hw).input_of_moved hm
      obtain ⟨k, rfl, hk⟩ := hr
      obtain ⟨k', hkk, hne⟩ := hgiven.resolve_left (by omega)
      obtain rfl : k = k' := by omega
      obtain ⟨x, hx⟩ := Option.ne_none_iff_exists'.mp hne
      refine .inr ⟨nofun, k, x, rfl, hx, ?_⟩
      rintro f rfl
      by_cases h1 : k = 1
      · subst h1
        rw [hm.fds] at hx
        cases hs : outputSource w c p with
        | none =>
            rw [hs] at hx
            cases hk.symm.trans hx
        | some src =>
            have hsnd := outputSource_snd (c := c) hw
            rw [hs] at hx hsnd
            simp only [if_true] at hx
            split at hx
            · cases hx
            · rw [Option.map_some, Option.some.inj hx] at hsnd
              rcases Option.or_eq_some_iff.mp hsnd.symm with h | ⟨-, h⟩
              · obtain ⟨_, -, h⟩ := Option.map_eq_some_iff.mp h
                cases h
              · obtain ⟨_, -, h⟩ := Option.map_eq_some_iff.mp h
                cases h
      · cases hk.symm.trans ((hm.get_iff h1).mp hx).1

/-- Standard input behind the branch, where there is an input file. -/
theorem input_of_moved {f : Str} (hr : InputGiven p₁.fds r i)
    (h0 : i = none → p₁.fds.get 0 ≠ none) (hm : Moved 0 (inputSource r c p₁) p₁ p')
    (hf : c.input = some f) : p'.fds.get 0 = some (.reading f) ↔ i = none := by
  rcases hr with ⟨rfl, rfl⟩ | ⟨hi, k, x, rfl, hk, hx⟩
  · refine iff_of_true ?_ rfl
    rw [hm.get_dst, inputSource_snd (i := none) rfl, hf]
    · rfl
    · intro src hsrc
      rw [inputSource, if_neg (by decide), hf] at hsrc
      cases hsrc
      exact (Slots.lowest_ne _ (h0 rfl)).symm
  · refine iff_of_false ?_ hi
    rw [hm.fds, inputSource, if_pos (by omega), Proc.at_natCast, hk]
    simp only [Option.map_some, Int.toNat_natCast, if_true]
    split
    · exact fun h => by cases h
    · exact fun h => hx f (Option.some.inj h)

/-- Standard output behind the branch, where there is an output file. -/
theorem output_of_moved {f : Str} (hr : InputGiven p₁.fds r i)
    (hw : Refers p.fds w (o.map .pipeWrite)) (hio : o = none → i ≠ none)
    (hm : Moved 1 (outputSource w c p) p p₁) (hm' : Moved 0 (inputSource r c p₁) p₁ p')
    (hf : c.output = some f) :
    p'.fds.get 1 = some (.writing f) ↔ o = none ∧ r ≠ 1 ∧ p.fds.lowest ≠ 1 := by
  rw [hm'.get_iff (by decide), hm.fds]
  cases o with
  | some q =>
      obtain ⟨k, rfl, hk⟩ := hw
      refine iff_of_false (fun h => ?_) fun h => by cases h.1
      have h := h.1
      rw [outputSource, if_pos (by omega), Proc.at_natCast, hk] at h
      simp only [Option.map_some, Int.toNat_natCast] at h
      split at h
      · cases h
      · cases h
  | none =>
      obtain rfl : w = -1 := hw
      obtain ⟨k, x, rfl, hk, -⟩ := (hr.resolve_left fun h => hio rfl h.1).2
      rw [outputSource, if_neg (by decide), hf, inputSource, if_pos (by omega), Proc.at_natCast,
        hk]
      have hk1 : (k : ℤ) ≠ 1 ↔ 1 ≠ k := by omega
      simp only [Option.map_some, Option.mem_some_iff, forall_eq', Int.toNat_natCast, hk1,
        if_true, true_and]
      by_cases h : 1 = p.fds.lowest
      · rw [if_pos h]
        exact iff_of_false (fun h' => by cases h'.1) fun h' => h'.2 h.symm
      · rw [if_neg h]
        exact ⟨fun h' => ⟨h'.2, Ne.symm h⟩, fun h' => ⟨rfl, h'.1⟩⟩

/-- The files of a command of a pipeline are honoured exactly where there are no pipes in
their place, and neither of the descriptors that are given up is standard output. -/
theorem pipeChild_honoured_iff (hr : Refers p.fds r (i.map .pipeRead))
    (hw : Refers p.fds w (o.map .pipeWrite)) (hio : o = none → i ≠ none)
    (hfirst : i = none → p.fds.get 0 ≠ none ∧ w ≠ 0)
    (hopen : p.Succeeds .openFile) (hdup : p.Succeeds .dup2) (hexec : p.Succeeds .execvp)
    (hfound : i = none → ∀ f ∈ c.input, p.files f ≠ none) :
    ∃ p', pipeChild r w c p = .error (.exec c.command c.args) p' ∧
      (Honoured c p p' ↔ (c.input ≠ none → i = none) ∧
        (c.output ≠ none → o = none ∧ r ≠ 1 ∧ p.fds.lowest ≠ 1)) := by
  have hfound' : r = -1 → ∀ f ∈ c.input, p.files f ≠ none := by
    rintro rfl
    cases i with
    | none => exact hfound rfl
    | some q =>
        obtain ⟨k, hk, -⟩ := hr
        omega
  obtain ⟨p₁, p', hrun, hm, hm', hfiles⟩ := pipeChild_run (c := c) hopen hdup hexec
    (hr.givenPipes hw) hfound'
  refine ⟨p', hrun, ?_⟩
  have hgiven := hr.inputGiven hw hm
  have h0 : i = none → p₁.fds.get 0 ≠ none := by
    intro hi
    obtain ⟨hin, hw0⟩ := hfirst hi
    rw [hm.get_of_ne (by decide) fun src hsrc => ?_]
    · exact hin
    · rcases outputSource_fst hw.given hsrc with h | h
      · omega
      · rw [h]
        exact (Slots.lowest_ne _ hin).symm
  constructor
  · intro h
    constructor
    · intro hne
      obtain ⟨f, hf⟩ := Option.ne_none_iff_exists'.mp hne
      exact (input_of_moved hgiven h0 hm' hf).mp (h.input f hf)
    · intro hne
      obtain ⟨f, hf⟩ := Option.ne_none_iff_exists'.mp hne
      exact (output_of_moved hgiven hw hio hm hm' hf).mp (h.output f hf)
  · rintro ⟨hin, hout⟩
    have hsome {o : Option Str} {f : Str} (hf : o = some f) : o ≠ none := by
      rw [hf]
      exact Option.some_ne_none f
    refine ⟨fun f hf => ?_, fun f hf => ?_, fun f hf => ?_, fun f hf => ?_⟩
    · exact (input_of_moved hgiven h0 hm' hf).mpr (hin (hsome hf))
    · have hw1 : w ≠ -1 := by
        cases o with
        | none => exact absurd (hin (hsome hf)) (hio rfl)
        | some q =>
            obtain ⟨k, rfl, -⟩ := hw
            omega
      rw [hfiles, if_pos hw1]
      rfl
    · exact (output_of_moved hgiven hw hio hm hm' hf).mpr (hout (hsome hf))
    · obtain ⟨rfl, -⟩ := hout (hsome hf)
      obtain rfl : w = -1 := hw
      rw [hfiles, if_neg (by decide), hf]
      exact ⟨_, if_pos rfl⟩

/-! ### The branch in `runRedirectExternal` -/

/-- The input file comes first. -/
theorem redirection_eq_some {f : Str} {t : Redirect} (h : redirection c = some (f, t)) :
    (t = .input ∧ c.input = some f) ∨ (t = .output ∧ c.output = some f) := by
  rw [redirection] at h
  split at h
  · rename_i g hg
    cases h
    exact .inl ⟨rfl, (Option.filter_eq_some_iff.mp hg).1⟩
  · obtain ⟨g, hg, hfg⟩ := Option.map_eq_some_iff.mp h
    cases hfg
    exact .inr ⟨rfl, (Option.filter_eq_some_iff.mp hg).1⟩

/-- `open` returns 0 exactly where nothing is open there. -/
theorem lowest_eq_zero_iff (t : Slots Open) : t.lowest = 0 ↔ t.get 0 = none := by
  rw [Slots.lowest_eq_iff]
  exact and_iff_left fun j hj => absurd hj (Nat.not_lt_zero j)

/-- It returns 1 exactly where something is open at 0, and nothing at 1. -/
theorem lowest_eq_one_iff (t : Slots Open) :
    t.lowest = 1 ↔ t.get 0 ≠ none ∧ t.get 1 = none := by
  rw [Slots.lowest_eq_iff]
  constructor
  · rintro ⟨h1, h0⟩
    exact ⟨h0 0 (by decide), h1⟩
  · rintro ⟨h0, h1⟩
    refine ⟨h1, fun j hj => ?_⟩
    obtain rfl : j = 0 := by omega
    exact h0

/-- When `runRedirectExternal` honours the files of a command: there is one of them, it does
not get the descriptor that it is then copied to, and an input file has the mode `0644`. -/
structure AloneRedirects (t : Slots Open) (c : Command Str) (p : Proc) : Prop where
  input : c.input ≠ none → c.output = none ∧ t.get 0 ≠ none
  mode : ∀ f ∈ c.input, (p.files f).map File.mode = some mode0644
  output : c.output ≠ none → c.input = none ∧ (t.get 1 ≠ none ∨ t.get 0 = none)

/-- The file that `runRedirectExternal` opens is honoured if there is no other one. -/
theorem redirectChild_honoured_iff {f : Str} {t : Redirect} (hc : redirection c = some (f, t))
    (hun : Unredirected p.fds) (hopen : p.Succeeds .openFile) (hchmod : p.Succeeds .chmod)
    (hdup : p.Succeeds .dup2) (hexec : p.Succeeds .execvp)
    (hfound : t = .input → p.files f ≠ none) :
    ∃ p', redirectChild c f t p = .error (.exec c.command c.args) p' ∧
      (Honoured c p p' ↔ AloneRedirects p.fds c p) := by
  obtain ⟨p', hrun, hm, hfiles⟩ := redirectChild_run (c := c) hopen hchmod hdup hexec hfound
  refine ⟨p', hrun, ?_⟩
  -- What is not written is on no file.
  have hother {k : ℕ} {x : Open} (hk : k ≠ t.stream) (hx : x.isFile) :
      p'.fds.get k ≠ some x := by
    intro h
    have := hun k x ((hm.get_iff hk).mp h).1
    simp_all
  have hstream : p'.fds.get t.stream = some (t.opened f) ↔ p.fds.lowest ≠ t.stream := by
    rw [hm.fds]
    simp only [if_true]
    by_cases h : t.stream = p.fds.lowest
    · rw [if_pos h]
      exact iff_of_false nofun fun h' => h' h.symm
    · rw [if_neg h]
      exact iff_of_true rfl (Ne.symm h)
  rcases redirection_eq_some hc with ⟨rfl, hin⟩ | ⟨rfl, hout⟩
  · have hlow : p.fds.lowest ≠ 0 ↔ p.fds.get 0 ≠ none := (lowest_eq_zero_iff _).not
    constructor
    · intro h
      have hno : c.output = none := by
        by_contra hne
        obtain ⟨g, hg⟩ := Option.ne_none_iff_exists'.mp hne
        exact hother (by decide) rfl (h.output g hg)
      refine ⟨fun _ => ⟨hno, hlow.mp (hstream.mp (h.input f hin))⟩, fun g hg => ?_,
        fun hne => absurd hno hne⟩
      obtain rfl : f = g := Option.some.inj (hin.symm.trans hg)
      rw [← h.mode f hin, hfiles]
      rfl
    · intro h
      obtain ⟨hno, h0⟩ := h.input (by rw [hin]; nofun)
      refine ⟨fun g hg => ?_, fun g hg => ?_, fun g hg => ?_, fun g hg => ?_⟩
      · obtain rfl : f = g := Option.some.inj (hin.symm.trans hg)
        exact hstream.mpr (hlow.mpr h0)
      · obtain rfl : f = g := Option.some.inj (hin.symm.trans hg)
        rw [h.mode f hin, hfiles]
        rfl
      · cases hno.symm.trans hg
      · cases hno.symm.trans hg
  · have hlow : p.fds.lowest ≠ 1 ↔ p.fds.get 1 ≠ none ∨ p.fds.get 0 = none := by
      rw [Ne, lowest_eq_one_iff]
      tauto
    constructor
    · intro h
      have hno : c.input = none := by
        by_contra hne
        obtain ⟨g, hg⟩ := Option.ne_none_iff_exists'.mp hne
        exact hother (by decide) rfl (h.input g hg)
      refine ⟨fun hne => absurd hno hne, fun g hg => ?_,
        fun _ => ⟨hno, hlow.mp (hstream.mp (h.output f hout))⟩⟩
      cases hno.symm.trans hg
    · intro h
      obtain ⟨hno, h1⟩ := h.output (by rw [hout]; nofun)
      refine ⟨fun g hg => ?_, fun g hg => ?_, fun g hg => ?_, fun g hg => ?_⟩
      · cases hno.symm.trans hg
      · cases hno.symm.trans hg
      · obtain rfl : f = g := Option.some.inj (hout.symm.trans hg)
        exact hstream.mpr (hlow.mpr h1)
      · obtain rfl : f = g := Option.some.inj (hout.symm.trans hg)
        exact ⟨_, hfiles⟩

/-! ### The children of a line -/

/-- The last of `n` stages does not get standard output as a descriptor of its own: it is in
use, or it has gone to a pipe in front of the last two stages. -/
def LastOutput (t : Slots Open) (n : ℕ) : Prop :=
  t.get 1 ≠ none ∨ (t.get 0 ≠ none ∧ 3 ≤ n) ∨ 4 ≤ n

/-- Behind a stage with a new pipe, standard input is in use. -/
theorem get_spawned_zero (s : ShellState) (l : Launch) : (s.spawned l).fds.get 0 ≠ none := by
  rw [ShellState.get_spawned]
  split
  · nofun
  · rename_i h
    exact fun h0 => h ((lowest_eq_zero_iff _).mpr h0).symm

/-- Standard output is in use behind it if it was, or if it is what the new pipe got. -/
theorem get_spawned_one (s : ShellState) (l : Launch) :
    (s.spawned l).fds.get 1 ≠ none ↔ s.fds.get 1 ≠ none ∨ s.fds.get 0 ≠ none := by
  rw [ShellState.get_spawned]
  by_cases h : 1 = s.readEnd
  · rw [if_pos h]
    exact iff_of_true nofun (.inr ((lowest_eq_one_iff _).mp h.symm).1)
  · rw [if_neg h]
    refine ⟨.inl, fun hor => ?_⟩
    by_contra h1
    exact h ((lowest_eq_one_iff _).mpr ⟨hor.resolve_left (not_not.mpr h1), h1⟩).symm

/-- The descriptors that the last stage gives up. -/
theorem last_stage (hlen : 2 ≤ cs.length)
    (ha : (stageChildren r s cs)[cs.length - 1]? = some a) {i o : ℤ}
    (hl : a.launch = .pipe i o c) :
    i ≠ 1 ∧ a.fds.lowest ≠ 1 ↔ LastOutput s.fds cs.length := by
  induction cs generalizing s r with
  | nil => cases ha
  | cons b rest ih =>
      match rest with
      | [] => exact absurd hlen (Nat.not_succ_le_self 1)
      | [d] =>
          obtain rfl := Option.some.inj ha
          cases hl
          have hread : ((s.readEnd : ℕ) : ℤ) ≠ 1 ↔ ¬ (s.fds.get 0 ≠ none ∧ s.fds.get 1 = none) := by
            rw [← lowest_eq_one_iff]
            exact Int.natCast_inj.not
          have hlow : (s.spawned (.pipe r s.writeEnd b)).fds.lowest ≠ 1 ↔
              s.fds.get 1 ≠ none ∨ s.fds.get 0 ≠ none := by
            rw [← get_spawned_one s (.pipe r s.writeEnd b), Ne, lowest_eq_one_iff, not_and]
            exact ⟨fun h => h (get_spawned_zero _ _), fun h _ => h⟩
          refine (and_congr hread hlow).trans ?_
          by_cases h0 : s.fds.get 0 = none
          · simp [LastOutput, h0]
          · simp [LastOutput, h0]
      | d :: e :: rest =>
          have h0 := get_spawned_zero s (.pipe r s.writeEnd b)
          have h1 := get_spawned_one s (.pipe r s.writeEnd b)
          rw [ih (by simp) ha, LastOutput, LastOutput, h1]
          have hge : 3 ≤ (b :: d :: e :: rest).length := by
            simp only [List.length_cons]
            omega
          have hiff : 3 ≤ (d :: e :: rest).length ∨ 4 ≤ (d :: e :: rest).length ↔
              4 ≤ (b :: d :: e :: rest).length := by
            simp only [List.length_cons]
            omega
          rw [and_iff_right h0, and_iff_left hge, hiff, or_assoc]

/-- When the files of the command number `j` of `n` commands are honoured. It is a condition on
the line, and on the files that are there before. -/
def Redirects (s : ShellState) (n j : ℕ) (c : Command Str) (p : Proc) : Prop :=
  if n = 1 then AloneRedirects s.fds c p
  else (c.input ≠ none → j = 0) ∧ (c.output ≠ none → j + 1 = n ∧ LastOutput s.fds n)

/-- The children of a line of `cs` come to their programs, and have the files of their
commands on their streams exactly where `Redirects` says so. -/
def HonouredAsTold (cs : List (Command Str)) (s s' : ShellState) : Prop :=
  ∀ j a, (s'.children.drop s.children.length)[j]? = some a →
    cs[j]? = some a.launch.cmd.unlinked ∧ ∀ p, a.Willing p → p.Succeeds .chmod →
      ∃ p', a.launch.code p = .error (.exec a.launch.cmd.command a.launch.cmd.args) p' ∧
        (Honoured a.launch.cmd p p' ↔ Redirects s cs.length j a.launch.cmd p)

/-- A line without children. -/
theorem honouredAsTold_of_no_child {s' : ShellState} (h : s'.children = s.children) :
    HonouredAsTold cs s s' := by
  intro j a ha
  rw [h, List.drop_length] at ha
  cases ha

/-- The child of a command alone. -/
theorem honouredAsTold_launched (hun : Unredirected s.fds) :
    HonouredAsTold [c.unlinked] s (s.launched (launchOf c)) := by
  cases hl : launchOf c with
  | none => exact honouredAsTold_of_no_child rfl
  | some l =>
      have hcmd := cmd_launchOf hl
      intro j a ha
      have hchild : a = s.child l ∧ j = 0 := by
        have hdrop : ((s.launched (some l)).children.drop s.children.length) = [s.child l] := by
          exact List.drop_left
        rw [hdrop] at ha
        cases j with
        | zero => exact ⟨(Option.some.inj ha).symm, rfl⟩
        | succ j => cases ha
      obtain ⟨rfl, rfl⟩ := hchild
      refine ⟨by rw [← hcmd]; rfl, fun p hp hchmod => ?_⟩
      have hun' : Unredirected p.fds := by
        rw [hp.fds]
        exact hun
      have hfds : p.fds = s.fds := hp.fds
      have hone : Redirects s [c.unlinked].length 0 (s.child l).launch.cmd p ↔
          AloneRedirects p.fds l.cmd p := by
        rw [Redirects, hp.fds]
        exact Iff.of_eq (if_pos rfl)
      rw [launchOf] at hl
      split at hl
      · obtain ⟨⟨f, t⟩, hr, rfl⟩ := Option.map_eq_some_iff.mp hl
        obtain ⟨p', hrun, hiff⟩ := redirectChild_honoured_iff hr hun' hp.openFile hchmod hp.dup2
          hp.execvp (by rintro rfl; exact hp.found f rfl)
        exact ⟨p', hrun, hiff.trans hone.symm⟩
      · rename_i hno
        split at hl
        · cases hl
        · cases hl
          obtain ⟨hout, hin⟩ := not_or.mp hno
          rw [not_not] at hout hin
          refine ⟨p, run_bind_error (execvp_run (hp.execvp _)), iff_of_true ?_ (hone.mpr ?_)⟩
          · constructor <;> simp [ShellState.child, Launch.cmd, hin, hout]
          · constructor <;> simp [Launch.cmd, hin, hout]

/-- The first child of a line has standard input in use, and the pipe on another descriptor. -/
theorem first_child_input {r : ℤ} (hlen : 2 ≤ cs.length)
    (ha : (stageChildren r s cs)[0]? = some a) {i o : ℤ} (hl : a.launch = .pipe i o c) :
    a.fds.get 0 ≠ none ∧ o ≠ 0 := by
  match cs, hlen with
  | b :: d :: rest, _ =>
    obtain rfl := Option.some.inj ha
    cases hl
    have hread (h : s.fds.get 0 = none) : s.readEnd = 0 := (lowest_eq_zero_iff _).mpr h
    constructor
    · intro h
      have h : s.piped.fds.get 0 = none := h
      rw [ShellState.get_piped] at h
      split at h
      · cases h
      · split at h
        · cases h
        · rename_i hne
          exact hne (hread h).symm
    · intro h
      have h0 : s.writeEnd = 0 := by omega
      have hfree := s.get_writeEnd
      rw [h0] at hfree
      exact s.writeEnd_ne (h0.trans (hread hfree).symm)

/-- The children of a line of two or more commands. -/
theorem honoured_of_line (hlen : 2 ≤ cs.length) {j : ℕ}
    (ha : (stageChildren (-1) s cs)[j]? = some a) (hp : a.Willing p) :
    ∃ p', a.launch.code p = .error (.exec a.launch.cmd.command a.launch.cmd.args) p' ∧
      (Honoured a.launch.cmd p p' ↔ Redirects s cs.length j a.launch.cmd p) := by
  have hchild := stageChild_of_line ha
  have hj : j < cs.length := by
    rw [← length_stageChildren (-1) s cs]
    exact (List.getElem?_eq_some_iff.mp ha).1
  obtain ⟨r, w, hl, hr, hw⟩ := hchild.launch
  have hi : inputPipe s j = none ↔ j = 0 := by
    rw [inputPipe]
    split
    · exact iff_of_true rfl ‹_›
    · exact iff_of_false (Option.some_ne_none _) ‹_›
  have ho : outputPipe s cs.length j = none ↔ j + 1 = cs.length := by
    rw [outputPipe]
    split
    · exact iff_of_false (Option.some_ne_none _) (by omega)
    · exact iff_of_true rfl (by omega)
  rw [← hp.fds] at hr hw
  have hfirst : inputPipe s j = none → p.fds.get 0 ≠ none ∧ w ≠ 0 := by
    intro hnone
    rw [hi.mp hnone] at ha
    rw [hp.fds]
    exact first_child_input hlen ha hl
  obtain ⟨p', hrun, hiff⟩ := pipeChild_honoured_iff (c := a.launch.cmd) hr hw
    (fun h h' => by have := ho.mp h; have := hi.mp h'; omega) hfirst hp.openFile hp.dup2
    hp.execvp (hchild.found hp)
  refine ⟨p', by rw [hl] at hrun ⊢; exact hrun, hiff.trans ?_⟩
  have hlast : j + 1 = cs.length →
      (r ≠ 1 ∧ p.fds.lowest ≠ 1 ↔ LastOutput s.fds cs.length) := by
    intro hj
    rw [hp.fds]
    refine last_stage hlen (r := -1) ?_ hl
    rwa [show cs.length - 1 = j by omega]
  rw [Redirects, if_neg (by omega), hi, ho]
  refine and_congr_right fun _ => imp_congr_right fun _ => and_congr_right hlast

/-- However the loop over two or more commands is left. -/
theorem honouredAsTold_staged {s' : ShellState} (hlen : 2 ≤ cs.length)
    (hst : Staged (-1) cs s s') : HonouredAsTold (cs.map Command.unlinked) s s' := by
  obtain ⟨l, ⟨l', hl⟩, hchildren⟩ := hst.forked
  intro j a ha
  have ha : (stageChildren (-1) s cs)[j]? = some a := by
    rw [hchildren, List.drop_left] at ha
    rw [← hl, List.getElem?_append_left (List.getElem?_eq_some_iff.mp ha).1, ha]
  refine ⟨?_, fun p hp _ => ?_⟩
  · have hcmd := congrArg (fun l => l[j]?) (unlinked_stageChildren (-1) s cs)
    simp only [List.getElem?_map, ha] at hcmd
    rw [List.getElem?_map, ← hcmd]
    rfl
  · rw [List.length_map]
    exact honoured_of_line hlen ha hp

/-- Where the files of the commands of a line are honoured: alone, a file of a command is if
it is the only one, and an input file has the mode `0644`; in a pipeline, an input file is
with the first command, and an output file with the last one. -/
theorem honoured_iff (h : Calm s) (hun : Unredirected s.fds) (tokens : List Str)
    (pipeFD : ℤ × ℤ) (hcs : commandsOf id s.heap.cells s.heap.size tokens = cs) :
    Ends (runCommands tokens pipeFD) s (fun _ s' => HonouredAsTold cs s s')
      (fun _ s' => HonouredAsTold cs s s') := by
  match cs with
  | [] =>
      obtain ⟨x, mem, hrun⟩ := runCommands_empty (by rw [hcs]; exact fun c hc => by cases hc) pipeFD
      exact .of_ok hrun (honouredAsTold_of_no_child rfl)
  | [c] =>
      obtain ⟨-, hn, hp, -⟩ := runCommands_single hcs pipeFD
      obtain ⟨mem, hrun⟩ := runCommands_one hcs pipeFD
      rw [Ends, hrun]
      change Ends _ { s with heap := mem } _ _
      cases hc : c.command with
      | none => exact .pure (honouredAsTold_of_no_child rfl)
      | some w =>
          rw [if_neg (Option.some_ne_none w)]
          split
          · exact .pure (honouredAsTold_of_no_child rfl)
          cases hw : isBuiltin w with
          | true =>
              refine (standaloneCommand_builtin hc hw).mono (fun _ t ht => ?_) fun _ t ht => ?_
              · exact honouredAsTold_of_no_child ht.children
              · exact honouredAsTold_of_no_child ht.1.children
          | false =>
              obtain ⟨x, hx⟩ := standaloneCommand_launch
                (s := { s with heap := mem }) h.fork hc hw
              have htold := honouredAsTold_launched (s := { s with heap := mem }) (c := c) hun
              rw [Command.unlinked_eq hn hp] at htold
              exact .of_ok hx htold
  | c :: d :: cs =>
      by_cases hc : c.command = none
      · obtain ⟨x, mem, hrun⟩ := runCommands_empty (by rw [hcs]; rintro e ⟨⟩; exact hc) pipeFD
        exact .of_ok hrun (honouredAsTold_of_no_child rfl)
      obtain ⟨c', d', cs', mem, hmap, hends⟩ := runCommands_pipeline h hcs hc pipeFD
      rw [← hmap]
      refine hends.mono ?_ fun e s' hst => ?_
      · rintro x s' ⟨t, hst, hret⟩
        have htold := honouredAsTold_staged (by simp)
          (Staged.cons (s := { s with heap := mem }) hst)
        rcases hret with ⟨-, rfl⟩ | ⟨v', -, rfl⟩
        · exact htold
        · exact htold
      · have htold := honouredAsTold_staged (by simp)
          (Staged.cons (s := { s with heap := mem }) hst.1)
        exact htold

/-- The three descriptors a shell starts with refer to no file. -/
theorem unredirected_standard : Unredirected standard := by
  intro k x h
  match k with
  | 0 | 1 | 2 =>
      cases h
      rfl
  | k + 3 => cases h

/-- The line `a <f >g`, in a shell that has just been started: its command. -/
def both : Command Str :=
  ⟨some ['a'], some [some ['a'], none], some ['f'], some ['g'], 0, none, none, 0, 1⟩

/-- The line `a <f >g` is one command with both files. -/
theorem commandsOf_both : commandsOf id started.heap.cells started.heap.size
    [['a'], ['<'], ['f'], ['>'], ['g']] = [both] := by
  simp [commandsOf, fill, splitter, setter, isOperator, Command.init, started, both]

/-- The line `a <f >g`. -/
theorem honoured_both :
    Ends (runCommands [['a'], ['<'], ['f'], ['>'], ['g']] (0, 0)) started
      (fun _ s' => HonouredAsTold [both] started s')
      (fun _ s' => HonouredAsTold [both] started s') :=
  honoured_iff calm_started unredirected_standard _ _ commandsOf_both

/-- The children of a line have the files of their commands on their streams. -/
def AllHonoured (s s' : ShellState) : Prop :=
  ∀ a ∈ s'.children.drop s.children.length, ∀ p p', a.Willing p → p.Succeeds .chmod →
    a.launch.code p = .error (.exec a.launch.cmd.command a.launch.cmd.args) p' →
    Honoured a.launch.cmd p p'

/-- The line `a <f >g` again: its output file is not opened. -/
theorem not_allHonoured : ¬ ∀ (s : ShellState) (tokens : List Str) (pipeFD : ℤ × ℤ),
    Calm s → Unredirected s.fds → Ends (runCommands tokens pipeFD) s
      (fun _ s' => AllHonoured s s') (fun _ s' => AllHonoured s s') := by
  intro h
  have hends := h started [['a'], ['<'], ['f'], ['>'], ['g']] (0, 0) calm_started
    unredirected_standard
  obtain ⟨mem, hrun⟩ := runCommands_one commandsOf_both (0, 0)
  obtain ⟨x, hx⟩ := standaloneCommand_launch (s := { started with heap := mem }) (c := both)
    calm_started.fork rfl (by decide)
  have hcmd : both.command ≠ none := Option.some_ne_none _
  rw [if_neg hcmd, if_neg (by decide)] at hrun
  have hall := hends.ok (hrun.trans hx)
  let p : Proc := ⟨standard, fun _ => some ⟨0, []⟩, 0, fun _ _ => false, 0⟩
  have hsucc (c : Call) : p.Succeeds c := fun _ => rfl
  obtain ⟨p', hcode, hiff⟩ := redirectChild_honoured_iff (c := both) (p := p) rfl
    unredirected_standard (hsucc _) (hsucc _) (hsucc _) (hsucc _) fun _ => nofun
  have hchild : ⟨1, .redirect both ['f'] .input, standard⟩ ∈
      ({ started with heap := mem }.launched (launchOf both)).children.drop 0 :=
    List.mem_cons_self
  have hhon := hall _ hchild p p' ⟨rfl, hsucc _, hsucc _, hsucc _, fun _ _ => nofun⟩ (hsucc _)
    hcode
  cases ((hiff.mp hhon).input nofun).1

end SystemsProjects.Shell
