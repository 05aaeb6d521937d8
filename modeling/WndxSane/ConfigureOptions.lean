import WndxSane.BuildScript

/-!
# Options for cmake

The values of the `-D` options are put together in one string; `tr` makes every run of white space a single
blank, and the shell cuts the string again at the configure step.  A value that has white space in it does
not come out as it went in.

* `fields_trSqueeze`: squeezing leaves the words that white space separates.
* `getOpt_copts`: the string that all the options make.
* **`defines_reach_iff`**: which values reach cmake.
-/

namespace WndxSane.BuildScript

open CMake (bytes)
open Words

/-! ### One string of options -/

def Opt.value? : Opt → Option Word
  | .define value => some value
  | _ => none

/-- The values of the `-D` options. -/
def defined (opts : List Opt) : List Word := opts.filterMap Opt.value?

/-- What the `-D` options put after the default options. -/
def definitions (vs : List Word) : List Byte := vs.flatMap fun v => bytes " -D " ++ v

variable {e : Setup} {d : Defaults} {opts : List Opt} {trailing : List Word} {s s' : OptState}

theorem definitions_append (us vs : List Word) :
    definitions (us ++ vs) = definitions us ++ definitions vs := List.flatMap_append

theorem getOptStep_copts {o : Opt} (h : getOptStep s o = .ok s') :
    s'.copts = s.copts ++ definitions o.value?.toList := by
  cases o <;> cases h
  case define value => simp [Opt.value?, definitions]
  all_goals exact (List.append_nil _).symm

theorem foldlM_getOptStep_copts (h : opts.foldlM getOptStep s = .ok s') :
    s'.copts = s.copts ++ definitions (defined opts) := by
  induction opts generalizing s with
  | nil =>
    cases h
    exact (List.append_nil _).symm
  | cons o opts ih =>
    rw [List.foldlM_cons] at h
    have hdefined : defined (o :: opts) = o.value?.toList ++ defined opts := by
      unfold defined
      cases ho : o.value? with
      | none => rw [List.filterMap_cons_none ho]; rfl
      | some v => rw [List.filterMap_cons_some ho]; rfl
    cases ho : getOptStep s o with
    | error x =>
      rw [ho] at h
      exact absurd h (by simp [bind, Except.bind])
    | ok t =>
      rw [ho] at h
      rw [ih h, getOptStep_copts ho, hdefined, definitions_append, List.append_assoc]

theorem getOpt_copts (h : getOpt d opts trailing = .ok s) :
    s.copts = trSqueeze (d.options ++ definitions (defined opts)) := by
  unfold getOpt at h
  cases hs : opts.foldlM getOptStep ⟨Flags.default, d.options⟩ with
  | error x =>
    rw [hs] at h
    exact absurd h (by simp [bind, Except.bind])
  | ok t =>
    rw [hs] at h
    cases hf : trailingArgs t.flags (List.intercalate [blank] trailing) with
    | error x =>
      simp only [bind, Except.bind, hf] at h
      exact absurd h (by simp)
    | ok f =>
      simp only [bind, Except.bind, hf] at h
      cases h
      rw [← foldlM_getOptStep_copts hs]

/-! ### Words of the string -/

theorem isIfs_of_isSpace_eq_false {c : Byte} (h : isSpace c = false) : isIfs c = false := by
  unfold isSpace at h
  unfold isIfs
  simp only [Bool.or_eq_false_iff, Bool.and_eq_false_iff, decide_eq_false_iff_not] at h ⊢
  refine ⟨⟨h.1, ?_⟩, ?_⟩ <;> rintro rfl <;> exact absurd h.2 (by decide)

/-- Squeezing leaves the words that white space separates. -/
theorem fields_trSqueeze (t : List Byte) : fields isIfs (trSqueeze t) = fields isSpace t := by
  rw [trSqueeze, fields_squeeze (by decide)]
  refine fields_map _ (fun c hc => ?_) (fun c hc => ?_) t
  · rw [if_pos hc]
    decide
  · rw [hc]
    exact ⟨rfl, isIfs_of_isSpace_eq_false hc⟩

theorem unquoted_trSqueeze (matching : Word → List Word) (t : List Byte) :
    unquoted matching (trSqueeze t) = (fields isSpace t).flatMap (pathnames matching) := by
  rw [unquoted, fields_trSqueeze]

theorem fields_define : fields isSpace (bytes "-D") = [bytes "-D"] := by decide

/-- The words of the `-D` options: a mark before the words of each value. -/
theorem fields_definitions (t : List Byte) (vs : List Word) :
    fields isSpace (t ++ definitions vs) =
      fields isSpace t ++ marked (bytes "-D") (fields isSpace) vs := by
  induction vs generalizing t with
  | nil => simp [definitions, marked]
  | cons v vs ih =>
    have hone : fields isSpace (t ++ (bytes " -D " ++ v)) =
        fields isSpace t ++ bytes "-D" :: fields isSpace v := by
      have hshape : t ++ (bytes " -D " ++ v) = t ++ 32 :: (bytes "-D" ++ 32 :: v) := rfl
      rw [hshape, fields_append_sep (by decide), fields_append_sep (by decide), fields_define]
      rfl
    have hmore := ih (t ++ (bytes " -D " ++ v))
    rw [hone] at hmore
    simp only [definitions, marked, List.flatMap_cons, List.append_assoc, List.cons_append] at hmore ⊢
    exact hmore

theorem pathnames_ne_nil (matching : Word → List Word) (w : Word) : pathnames matching w ≠ [] := by
  unfold pathnames
  split
  · rename_i h
    simpa using (Bool.and_eq_true_iff.mp h).2
  · exact List.cons_ne_nil w []

theorem pathnames_of_not_isPattern {matching : Word → List Word} {w : Word}
    (h : isPattern w = false) : pathnames matching w = [w] := by
  rw [pathnames, h, Bool.false_and, if_neg Bool.false_ne_true]

/-- The arguments that a value becomes. -/
def becomes (matching : Word → List Word) (v : Word) : List Word :=
  (fields isSpace v).flatMap (pathnames matching)

theorem becomes_eq_self_iff {matching : Word → List Word} {v : Word} :
    becomes matching v = [v] ↔ ∃ w, fields isSpace v = [w] ∧ pathnames matching w = [v] :=
  flatMap_eq_singleton_iff (pathnames_ne_nil matching)

/-- A value that is no pattern is one argument if it has no white space. -/
theorem becomes_eq_self_iff_of_not_isPattern {matching : Word → List Word} {v : Word} (hv : v ≠ [])
    (hpattern : isPattern v = false) :
    becomes matching v = [v] ↔ ∀ c ∈ v, isSpace c = false := by
  have hwords : becomes matching v = fields isSpace v := by
    have hone : ∀ w ∈ fields isSpace v, pathnames matching w = [w] := by
      intro w hw
      refine pathnames_of_not_isPattern (List.any_eq_false.mpr fun c hc => ?_)
      exact List.any_eq_false.mp hpattern c ((mem_fields hw).2 c hc).2
    rw [becomes, List.flatMap_congr hone, List.flatMap_singleton']
  rw [hwords, fields_eq_self_iff]
  exact and_iff_right hv

/-! ### The configure step -/

/-- What is put after the options for mold starts with a blank. -/
theorem unquoted_append_moldOptions (matching : Word → List Word) (t : List Byte) (copts : List Byte) :
    unquoted matching (t ++ moldOptions e copts) =
      unquoted matching t ++ unquoted matching (moldOptions e copts) := by
  have hcases : moldOptions e copts = [] ∨ ∃ q, moldOptions e copts = 32 :: q := by
    have hmold : ∃ q, bytes " -D CMAKE_LINKER_TYPE=MOLD" = 32 :: q := ⟨_, rfl⟩
    unfold moldOptions
    split_ifs
    all_goals first | exact Or.inl rfl | exact Or.inr hmold
  rcases hcases with hnil | ⟨q, hq⟩
  · rw [hnil, List.append_nil, unquoted, unquoted, fields_nil, List.flatMap_nil, List.append_nil]
  · rw [hq, unquoted, unquoted, unquoted, fields_append_sep (by decide), fields_cons_sep (by decide),
      List.flatMap_append]

/-- The arguments of cmake, as the values make them. -/
theorem configureArgs_eq (h : getOpt d opts trailing = .ok s) :
    configureArgs e s = fixedArgs e s ++ unquoted e.matching (trSqueeze d.options) ++
      marked (bytes "-D") (becomes e.matching) (defined opts) ++
        unquoted e.matching (moldOptions e s.copts) := by
  have hmarked : (marked (bytes "-D") (fields isSpace) (defined opts)).flatMap (pathnames e.matching) =
      marked (bytes "-D") (becomes e.matching) (defined opts) := by
    have hmark : pathnames e.matching (bytes "-D") = [bytes "-D"] :=
      pathnames_of_not_isPattern (by decide)
    simp only [marked, List.flatMap_assoc, List.flatMap_cons, hmark]
    rfl
  rw [configureArgs, unquoted_append_moldOptions, getOpt_copts h, unquoted_trSqueeze,
    unquoted_trSqueeze, fields_definitions, List.flatMap_append, hmarked]
  simp only [List.append_assoc]

/-- The `-D` options reach cmake: after what is fixed and what the default options make, there is `-D` and the
value for each of them, in order, and after these only what is put there for mold. -/
def DefinesReach (e : Setup) (d : Defaults) (opts : List Opt) (s : OptState) : Prop :=
  configureArgs e s = fixedArgs e s ++ unquoted e.matching (trSqueeze d.options) ++
    (defined opts).flatMap (fun v => [bytes "-D", v]) ++ unquoted e.matching (moldOptions e s.copts)

theorem definesReach_iff (h : getOpt d opts trailing = .ok s) :
    DefinesReach e d opts s ↔ ∀ v ∈ defined opts, becomes e.matching v = [v] := by
  have hmark : becomes e.matching (bytes "-D") ≠ [] := by
    rw [becomes, fields_define, List.flatMap_singleton]
    exact pathnames_ne_nil _ _
  rw [DefinesReach, configureArgs_eq h, List.append_cancel_right_eq, List.append_cancel_left_eq]
  exact marked_eq_iff hmark (defined opts)

/-- **Options that reach cmake.**  All the `-D` options reach cmake if and only if each value is one word, and
pathname expansion makes that word the value.  So it is for values that are no patterns if and only if they
have no white space. -/
theorem defines_reach_iff (h : getOpt d opts trailing = .ok s) :
    (DefinesReach e d opts s ↔
        ∀ v ∈ defined opts, ∃ w, fields isSpace v = [w] ∧ pathnames e.matching w = [v]) ∧
      ((∀ v ∈ defined opts, v ≠ [] ∧ isPattern v = false) →
        (DefinesReach e d opts s ↔ ∀ v ∈ defined opts, ∀ c ∈ v, isSpace c = false)) := by
  rw [definesReach_iff h]
  refine ⟨forall₂_congr fun v _ => becomes_eq_self_iff, fun hplain => forall₂_congr fun v hv => ?_⟩
  exact becomes_eq_self_iff_of_not_isPattern (hplain v hv).1 (hplain v hv).2

/-- A directory without files that match anything. -/
def linux : Setup :=
  ⟨bytes "Linux", false, bytes "gcc", fun _ => [], bytes ".", bytes "build", bytes "Ninja", false⟩

/-- The defaults under gcc. -/
def gcc : Defaults :=
  ⟨bytes "gcc", bytes "g++", bytes "Debug", bytes "WNDX_SANE_BUILD_TESTS",
    bytes "WNDX_SANE_MEMCHECK_ENABLE", []⟩

/-- `-D BUILD_SHARED_LIBS=ON`. -/
theorem define_reaches_of_one_word :
    ∃ s, getOpt gcc [.define (bytes "BUILD_SHARED_LIBS=ON")] [] = .ok s ∧
      DefinesReach linux gcc [.define (bytes "BUILD_SHARED_LIBS=ON")] s := by
  have hopts : getOpt gcc [.define (bytes "BUILD_SHARED_LIBS=ON")] [] = .ok
      ⟨Flags.default, trSqueeze (gcc.options ++ bytes " -D " ++ bytes "BUILD_SHARED_LIBS=ON")⟩ := rfl
  have hword : fields isSpace (bytes "BUILD_SHARED_LIBS=ON") = [bytes "BUILD_SHARED_LIBS=ON"] := by decide
  refine ⟨_, hopts, ((defines_reach_iff hopts).2 fun v hv => ?_).mpr fun v hv => ?_⟩
  · rw [List.mem_singleton.mp hv]
    decide
  · rw [List.mem_singleton.mp hv]
    exact (fields_eq_self_iff.mp hword).2

/-- `-D 'CMAKE_CXX_FLAGS=-O2 -g'` is cut in two. -/
theorem define_cut_at_blank :
    ¬ ∀ (e : Setup) (d : Defaults) (opts : List Opt) (trailing : List Word) (s : OptState),
      getOpt d opts trailing = .ok s → (∀ v ∈ defined opts, v ≠ []) → DefinesReach e d opts s := by
  intro h
  have hopts : getOpt gcc [.define (bytes "CMAKE_CXX_FLAGS=-O2 -g")] [] = .ok
      ⟨Flags.default, trSqueeze (gcc.options ++ bytes " -D " ++ bytes "CMAKE_CXX_FLAGS=-O2 -g")⟩ := rfl
  have hreach := h linux gcc [.define (bytes "CMAKE_CXX_FLAGS=-O2 -g")] [] _ hopts (by decide)
  have hword := (definesReach_iff hopts).mp hreach (bytes "CMAKE_CXX_FLAGS=-O2 -g") List.mem_cons_self
  exact absurd hword (by decide)

end WndxSane.BuildScript
