import WndxSane.BuildScript

/-!
# Trailing arguments

The positional arguments of the build script are commands: four kinds of cleaning, and the keywords that run
the tests, each of which takes the next word, if there is one, as its filter.  `trailing_args` keeps the
pending keyword and the filter in variables from one word to the next.

* `parse`: the commands that the documented usage makes of a list of words.
* `trailingLoop_of_parse`: the loop does one command after another, and fails where there is none.
* **`follows_grammar_iff`**: the flags are those of the commands, unless the last keyword is of ctest, has no
  filter, and another test keyword had one before.
-/

namespace WndxSane.BuildScript

open CMake (bytes)
open Words

/-! ### Commands -/

/-- A command of the positional arguments. -/
inductive Command
  | cleanest
  | cleaner
  | clean
  | xCache
  | test (keyword : Word) (filter : Option Word)
  deriving DecidableEq

/-- The command that a keyword alone stands for. -/
def cleanCommand (w : Word) : Option Command :=
  if [bytes "cleanest", bytes "ccc"].contains w then some .cleanest
  else if [bytes "cleaner", bytes "cc"].contains w then some .cleaner
  else if [bytes "clean", bytes "c"].contains w then some .clean
  else if [bytes "x_cache", bytes "x"].contains w then some .xCache
  else none

/-- The commands that words stand for; `none` if a word where a command is due is no keyword. -/
def parse : List Word → Option (List Command)
  | [] => some []
  | [w] => if isTest w then some [.test w none] else (cleanCommand w).map fun c => [c]
  | w :: filter :: ws =>
    if isTest w then (parse ws).map fun cs => .test w (some filter) :: cs
    else (cleanCommand w).bind fun c => (parse (filter :: ws)).map fun cs => c :: cs

/-- The filter of a test runner that is given none. -/
def defaultFilter (keyword : Word) : Word := if isGtest keyword then bytes "*" else bytes ".*"

/-- The test keyword of a command and its filter. -/
def Command.test? : Command → Option (Word × Option Word)
  | .test keyword filter => some (keyword, filter)
  | _ => none

/-- The last test keyword of a list of commands and its filter. -/
def lastTest (cs : List Command) : Option (Word × Option Word) := (cs.filterMap Command.test?).getLast?

/-- What the flags are to be after the commands. -/
structure Means (cs : List Command) (f : Flags) : Prop where
  cleanest : f.cleanest = true ↔ .cleanest ∈ cs
  cleaner : f.cleaner = true ↔ .cleaner ∈ cs
  clean : f.clean = true ↔ .clean ∈ cs
  rmCmakecache : f.rmCmakecache = true ↔ .xCache ∈ cs
  runTests : f.runTests = true ↔ lastTest cs ≠ none
  runTestsType : ∀ keyword filter, lastTest cs = some (keyword, filter) → f.runTestsType = keyword
  testsFilter : ∀ keyword filter, lastTest cs = some (keyword, filter) →
    f.testsFilter = filter.getD (defaultFilter keyword)

/-- The trailing arguments do what the usage says. -/
structure FollowsGrammar (ws : List Word) : Prop where
  exits : (∃ e, trailingArgs Flags.default (List.intercalate [blank] ws) = .error e ∧ e.status = 6) ↔
    parse ws = none
  returns : ∀ cs, parse ws = some cs →
    ∃ f, trailingArgs Flags.default (List.intercalate [blank] ws) = .ok f ∧ Means cs f

/-! ### The loop -/

/-- What the loop does to the flags for one command. -/
def Flags.apply (f : Flags) : Command → Flags
  | .cleanest => { f with cleanest := true }
  | .cleaner => { f with cleaner := true }
  | .clean => { f with clean := true }
  | .xCache => { f with rmCmakecache := true }
  | .test keyword (some filter) =>
    { f with runTests := true, runTestsType := keyword, testsFilter := filter, argType := [] }
  | .test keyword none =>
    { f with
      runTests := true
      runTestsType := keyword
      testsFilter := if isGtest keyword then bytes "*" else f.testsFilter
      argType := keyword }

variable {f : Flags} {targc argn : ℕ} {targv w : Word} {args : List Word}

theorem ne_nil_of_isTest (h : isTest w = true) : w ≠ [] := by
  rintro rfl
  exact absurd h (by decide)

/-- A word that follows a test keyword is its filter. -/
theorem trailingLoop_filter (h : f.argType ≠ []) :
    trailingLoop targc targv argn f (w :: args) =
      trailingLoop targc targv (argn + 1) { f with testsFilter := w, argType := [] } args := by
  rw [trailingLoop, if_pos h]

theorem trailingLoop_test (hf : f.argType = []) (h : isTest w = true) :
    trailingLoop targc targv argn f (w :: args) =
      trailingLoop targc targv (argn + 1) (f.apply (.test w none)) args := by
  rw [trailingLoop, if_neg (not_not.mpr hf), if_pos h]
  rfl

/-- A keyword of cleaning is done at once, and any other word is an error. -/
theorem trailingLoop_clean (hf : f.argType = []) (h : isTest w = false) :
    trailingLoop targc targv argn f (w :: args) =
      match cleanCommand w with
      | some c => trailingLoop targc targv (argn + 1) (f.apply c) args
      | none => .error (.unparsed targc (cutFrom (argn + 1) targv) w) := by
  rw [trailingLoop, if_neg (not_not.mpr hf), h, if_neg Bool.false_ne_true, cleanCommand]
  split_ifs <;> rfl

theorem argType_apply_clean {c : Command} (hc : cleanCommand w = some c) (hf : f.argType = []) :
    (f.apply c).argType = [] := by
  unfold cleanCommand at hc
  split_ifs at hc <;> cases hc <;> exact hf

/-- **The loop.**  Where the words are commands, the loop does one after another. -/
theorem trailingLoop_of_parse {ws : List Word} {cs : List Command} (h : parse ws = some cs)
    (hf : f.argType = []) :
    trailingLoop targc targv argn f ws = .ok (cs.foldl Flags.apply f) := by
  induction ws using parse.induct generalizing f cs argn with
  | case1 =>
    cases h
    rfl
  | case2 w htest =>
    rw [parse, if_pos htest] at h
    cases h
    rw [trailingLoop_test hf htest]
    rfl
  | case3 w htest =>
    rw [parse, if_neg htest] at h
    obtain ⟨c, hc, rfl⟩ := Option.map_eq_some_iff.mp h
    rw [trailingLoop_clean hf ((Bool.not_eq_true _).mp htest), hc]
    rfl
  | case4 w filter ws htest ih =>
    rw [parse, if_pos htest] at h
    obtain ⟨cs', hcs, rfl⟩ := Option.map_eq_some_iff.mp h
    rw [trailingLoop_test hf htest, trailingLoop_filter (by exact ne_nil_of_isTest htest), ih hcs rfl]
    rfl
  | case5 w filter ws htest ih =>
    rw [parse, if_neg htest] at h
    obtain ⟨c, hc, h⟩ := Option.bind_eq_some_iff.mp h
    obtain ⟨cs', hcs, rfl⟩ := Option.map_eq_some_iff.mp h
    rw [trailingLoop_clean hf ((Bool.not_eq_true _).mp htest), hc, List.foldl_cons]
    exact ih hcs (argType_apply_clean hc hf)

/-- Where they are not, it fails. -/
theorem trailingLoop_of_parse_none {ws : List Word} (h : parse ws = none) (hf : f.argType = []) :
    ∃ e, trailingLoop targc targv argn f ws = .error e ∧ e.status = 6 := by
  induction ws using parse.induct generalizing f argn with
  | case1 => exact absurd h (by simp [parse])
  | case2 w htest =>
    rw [parse, if_pos htest] at h
    exact absurd h (by simp)
  | case3 w htest =>
    rw [parse, if_neg htest, Option.map_eq_none_iff] at h
    rw [trailingLoop_clean hf ((Bool.not_eq_true _).mp htest), h]
    exact ⟨_, rfl, rfl⟩
  | case4 w filter ws htest ih =>
    rw [parse, if_pos htest, Option.map_eq_none_iff] at h
    rw [trailingLoop_test hf htest, trailingLoop_filter (by exact ne_nil_of_isTest htest)]
    exact ih h rfl
  | case5 w filter ws htest ih =>
    rw [parse, if_neg htest] at h
    rw [trailingLoop_clean hf ((Bool.not_eq_true _).mp htest)]
    cases hc : cleanCommand w with
    | none => exact ⟨_, rfl, rfl⟩
    | some c =>
      rw [hc, Option.bind_some, Option.map_eq_none_iff] at h
      exact ih h (argType_apply_clean hc hf)

/-! ### The flags after all commands -/

variable {cs : List Command}

/-- A flag that commands only ever set. -/
theorem foldl_apply_flag {flag : Flags → Bool} {sets : Command → Bool}
    (h : ∀ f c, flag (f.apply c) = (flag f || sets c)) (cs : List Command) (f : Flags) :
    flag (cs.foldl Flags.apply f) = (flag f || cs.any sets) := by
  induction cs generalizing f with
  | nil => simp
  | cons c cs ih => rw [List.foldl_cons, ih, h, List.any_cons, Bool.or_assoc]

/-- A flag with a command of its own. -/
theorem foldl_apply_iff_mem (flag : Flags → Bool) {c : Command} (hdefault : flag Flags.default = false)
    (h : ∀ f d, flag (f.apply d) = (flag f || decide (d = c))) (cs : List Command) :
    flag (cs.foldl Flags.apply Flags.default) = true ↔ c ∈ cs := by
  rw [foldl_apply_flag h, hdefault, Bool.false_or, List.any_eq_true]
  constructor
  · rintro ⟨d, hd, hdc⟩
    exact of_decide_eq_true hdc ▸ hd
  · exact fun hc => ⟨c, hc, decide_eq_true rfl⟩

theorem lastTest_concat (cs : List Command) (c : Command) :
    lastTest (cs ++ [c]) = match c.test? with
      | some t => some t
      | none => lastTest cs := by
  rw [lastTest, List.filterMap_append]
  cases hc : c.test? with
  | none => rw [List.filterMap_cons_none hc, List.filterMap_nil, List.append_nil, lastTest]
  | some t => rw [List.filterMap_cons_some hc, List.filterMap_nil, List.getLast?_concat]

/-- The tests are run if there is a test keyword. -/
theorem runTests_foldl : (cs.foldl Flags.apply Flags.default).runTests = true ↔ lastTest cs ≠ none := by
  have hsets : ∀ (f : Flags) (c : Command), (f.apply c).runTests = (f.runTests || c.test?.isSome) := by
    intro f c
    cases c with
    | test keyword filter => cases filter <;> exact (Bool.or_true _).symm
    | _ => exact (Bool.or_false _).symm
  rw [foldl_apply_flag hsets, show Flags.default.runTests = false from rfl, Bool.false_or, lastTest, Ne,
    List.getLast?_eq_none_iff, List.filterMap_eq_nil_iff, List.any_eq_true]
  push Not
  exact exists_congr fun c => and_congr_right fun _ => Option.isSome_iff_ne_none

/-- The keyword and the filter that stay are those of the last test keyword, where it has a filter. -/
theorem tests_foldl {keyword : Word} {filter : Option Word} (h : lastTest cs = some (keyword, filter))
    (f : Flags) :
    (cs.foldl Flags.apply f).runTestsType = keyword ∧
      ∀ w, filter = some w → (cs.foldl Flags.apply f).testsFilter = w := by
  induction cs using List.reverseRecOn with
  | nil => exact absurd h (by simp [lastTest])
  | append_singleton cs c ih =>
    rw [lastTest_concat] at h
    rw [List.foldl_concat]
    cases c with
    | test k given =>
      cases h
      cases filter with
      | none => exact ⟨rfl, fun w hw => absurd hw (by simp)⟩
      | some v => exact ⟨rfl, fun w hw => Option.some.inj hw⟩
    | _ => exact ih h

theorem testsFilter_foldl_of_none (h : lastTest cs = none) (f : Flags) :
    (cs.foldl Flags.apply f).testsFilter = f.testsFilter := by
  induction cs using List.reverseRecOn with
  | nil => rfl
  | append_singleton cs c ih =>
    rw [lastTest_concat] at h
    rw [List.foldl_concat]
    cases c with
    | test k given => exact absurd h (by simp [Command.test?])
    | _ => exact ih h

/-! ### Keywords without a filter -/

theorem ne_test_of_cleanCommand {c : Command} (hc : cleanCommand w = some c) (k : Word)
    (filter : Option Word) : c ≠ .test k filter := by
  unfold cleanCommand at hc
  split_ifs at hc <;> cases hc <;> exact Command.noConfusion

/-- Only the last command can be a keyword without a filter. -/
theorem eq_concat_of_parse {ws : List Word} (h : parse ws = some cs) {k : Word}
    (hk : .test k none ∈ cs) :
    ∃ front, cs = front ++ [Command.test k none] ∧ ∀ k', Command.test k' none ∉ front := by
  induction ws using parse.induct generalizing cs with
  | case1 =>
    cases h
    exact absurd hk (by simp)
  | case2 w htest =>
    rw [parse, if_pos htest] at h
    cases h
    exact ⟨[], by rw [List.mem_singleton.mp hk]; rfl, by simp⟩
  | case3 w htest =>
    rw [parse, if_neg htest] at h
    obtain ⟨c, hc, rfl⟩ := Option.map_eq_some_iff.mp h
    exact absurd (List.mem_singleton.mp hk).symm (ne_test_of_cleanCommand hc k none)
  | case4 w filter ws htest ih =>
    rw [parse, if_pos htest] at h
    obtain ⟨cs', hcs, rfl⟩ := Option.map_eq_some_iff.mp h
    obtain ⟨front, rfl, hfront⟩ := ih hcs ((List.mem_cons.mp hk).resolve_left (by simp))
    refine ⟨.test w (some filter) :: front, rfl, fun k' hk' => ?_⟩
    exact hfront k' ((List.mem_cons.mp hk').resolve_left (by simp))
  | case5 w filter ws htest ih =>
    rw [parse, if_neg htest] at h
    obtain ⟨c, hc, h⟩ := Option.bind_eq_some_iff.mp h
    obtain ⟨cs', hcs, rfl⟩ := Option.map_eq_some_iff.mp h
    have hne : ∀ k', .test k' none ≠ c := fun k' => (ne_test_of_cleanCommand hc k' none).symm
    obtain ⟨front, rfl, hfront⟩ := ih hcs ((List.mem_cons.mp hk).resolve_left (hne k))
    exact ⟨c :: front, rfl, fun k' hk' => hfront k' ((List.mem_cons.mp hk').resolve_left (hne k'))⟩

theorem mem_of_lastTest {k : Word} {filter : Option Word} (h : lastTest cs = some (k, filter)) :
    .test k filter ∈ cs := by
  obtain ⟨c, hc, htest⟩ := List.mem_filterMap.mp (List.mem_of_getLast? h)
  cases c with
  | test k' filter' =>
    cases htest
    exact hc
  | _ => exact absurd htest (by simp [Command.test?])

/-- The last command is a keyword of ctest without a filter, and the test keyword before it had another
filter than the default one of ctest. -/
def KeepsEarlierFilter (cs : List Command) : Prop :=
  ∃ front keyword keyword' filter, cs = front ++ [.test keyword none] ∧ isGtest keyword = false ∧
    lastTest front = some (keyword', some filter) ∧ filter ≠ bytes ".*"

/-- Without a filter of its own, a keyword of ctest leaves the filter as it is. -/
theorem testsFilter_concat (front : List Command) (keyword : Word) (f : Flags) :
    ((front ++ [Command.test keyword none]).foldl Flags.apply f).testsFilter =
      if isGtest keyword then bytes "*" else (front.foldl Flags.apply f).testsFilter := by
  rw [List.foldl_concat]
  rfl

/-- What the commands of a list of words mean, and what the loop does. -/
theorem means_foldl_iff {ws : List Word} (h : parse ws = some cs) :
    Means cs (cs.foldl Flags.apply Flags.default) ↔ ¬ KeepsEarlierFilter cs := by
  constructor
  · rintro hmeans ⟨front, keyword, keyword', filter, rfl, hctest, hfront, hne⟩
    have hlast : lastTest (front ++ [Command.test keyword none]) = some (keyword, none) := lastTest_concat ..
    have hfilter := hmeans.testsFilter keyword none hlast
    rw [testsFilter_concat, hctest, Option.getD_none, defaultFilter, hctest,
      if_neg Bool.false_ne_true, if_neg Bool.false_ne_true,
      (tests_foldl hfront Flags.default).2 filter rfl] at hfilter
    exact hne hfilter
  · intro hkeeps
    refine
      { cleanest := foldl_apply_iff_mem Flags.cleanest rfl (fun f d => ?_) cs
        cleaner := foldl_apply_iff_mem Flags.cleaner rfl (fun f d => ?_) cs
        clean := foldl_apply_iff_mem Flags.clean rfl (fun f d => ?_) cs
        rmCmakecache := foldl_apply_iff_mem Flags.rmCmakecache rfl (fun f d => ?_) cs
        runTests := runTests_foldl
        runTestsType := fun keyword filter hlast => (tests_foldl hlast _).1
        testsFilter := fun keyword filter hlast => ?_ }
    iterate 4
      cases d with
      | test keyword filter => cases filter <;> simp [Flags.apply]
      | _ => simp [Flags.apply]
    cases filter with
    | some w => exact (tests_foldl hlast _).2 w rfl
    | none =>
      obtain ⟨front, rfl, hfront⟩ := eq_concat_of_parse h (mem_of_lastTest hlast)
      rw [testsFilter_concat, Option.getD_none, defaultFilter]
      cases hg : isGtest keyword with
      | true => rfl
      | false =>
        rw [if_neg Bool.false_ne_true, if_neg Bool.false_ne_true]
        cases hprev : lastTest front with
        | none => exact testsFilter_foldl_of_none hprev _
        | some t =>
          obtain ⟨keyword', given⟩ := t
          cases given with
          | none => exact absurd (mem_of_lastTest hprev) (hfront keyword')
          | some filter =>
            rw [(tests_foldl hprev _).2 filter rfl]
            by_contra hne
            exact hkeeps ⟨front, keyword, keyword', filter, rfl, hg, hprev, hne⟩

/-! ### The grammar -/

/-- The words of the loop are the words of the call. -/
theorem trailingArgs_intercalate {ws : List Word} (hws : ∀ w ∈ ws, w ≠ [] ∧ blank ∉ w) (f : Flags) :
    trailingArgs f (List.intercalate [blank] ws) =
      trailingLoop 1 (List.intercalate [blank] ws) 0 f ws := by
  have hfields : fields (· = blank) (List.intercalate [blank] ws) = ws := by
    refine fields_intercalate (· = blank) (by simp) fun w hw => ⟨(hws w hw).1, fun c hc => ?_⟩
    exact decide_eq_false fun he : c = blank => (hws w hw).2 (he ▸ hc)
  unfold trailingArgs
  split
  · rename_i hnil
    rw [hnil, fields_nil] at hfields
    rw [← hfields]
    rfl
  · rw [hfields]

/-- **The grammar of the trailing arguments.**  For words without blanks: the script exits with status 6
exactly where a word that should be a keyword is none, and else sets the flags as the commands say, if and
only if it is not so that the last command is a keyword of ctest without a filter, and the test keyword before
it had a filter other than `.*`; that filter is then used again. -/
theorem follows_grammar_iff (ws : List Word) (hws : ∀ w ∈ ws, w ≠ [] ∧ blank ∉ w) :
    FollowsGrammar ws ↔ ∀ cs, parse ws = some cs → ¬ KeepsEarlierFilter cs := by
  have hargs := trailingArgs_intercalate hws Flags.default
  have hreturns : ∀ cs, parse ws = some cs → trailingArgs Flags.default (List.intercalate [blank] ws) =
      .ok (cs.foldl Flags.apply Flags.default) := fun cs hcs => by
    rw [hargs, trailingLoop_of_parse hcs rfl]
  constructor
  · intro h cs hcs
    obtain ⟨f, hf, hmeans⟩ := h.returns cs hcs
    rw [hreturns cs hcs] at hf
    cases hf
    exact (means_foldl_iff hcs).mp hmeans
  · intro h
    refine ⟨⟨fun ⟨e, he, _⟩ => ?_, fun hnone => ?_⟩, fun cs hcs => ⟨_, hreturns cs hcs, ?_⟩⟩
    · cases hcs : parse ws with
      | none => rfl
      | some cs =>
        rw [hreturns cs hcs] at he
        exact absurd he (by simp)
    · rw [hargs]
      exact trailingLoop_of_parse_none hnone rfl
    · exact (means_foldl_iff hcs).mpr (h cs hcs)

/-- `c gt *Sane*`. -/
theorem follows_grammar_of_gtest : FollowsGrammar [bytes "c", bytes "gt", bytes "*Sane*"] := by
  refine (follows_grammar_iff _ (by decide)).mpr fun cs hcs => ?_
  have hparse : parse [bytes "c", bytes "gt", bytes "*Sane*"] =
      some [.clean, .test (bytes "gt") (some (bytes "*Sane*"))] := by decide
  rw [hparse] at hcs
  cases hcs
  rintro ⟨front, keyword, keyword', filter, hlast, -⟩
  have hend := congrArg List.getLast? hlast
  rw [List.getLast?_concat] at hend
  exact absurd hend (by simp)

/-- With `gt *Sane* ct`, ctest is given the filter `*Sane*`. -/
theorem ctest_given_gtest_filter :
    ¬ ∀ ws : List Word, (∀ w ∈ ws, w ≠ [] ∧ blank ∉ w) → FollowsGrammar ws := by
  intro h
  obtain ⟨f, hf, hmeans⟩ := (h [bytes "gt", bytes "*Sane*", bytes "ct"] (by decide)).returns
    [.test (bytes "gt") (some (bytes "*Sane*")), .test (bytes "ct") none] (by decide)
  have hfilter := hmeans.testsFilter (bytes "ct") none (by decide)
  have hrun : trailingArgs Flags.default
      (List.intercalate [blank] [bytes "gt", bytes "*Sane*", bytes "ct"]) =
        .ok ⟨false, false, false, false, true, bytes "ct", bytes "*Sane*", bytes "ct"⟩ := by decide
  rw [hrun] at hf
  cases hf
  exact absurd hfilter (by decide)

end WndxSane.BuildScript
