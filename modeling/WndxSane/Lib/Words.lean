import Mathlib.Data.List.Basic
import Mathlib.Tactic.Common

/-!
# Words of a line

A line is cut into words at its separators, as a shell cuts what an expansion leaves: separators at the
start and the end do not count, and several in a row count as one.

* `fields_append_sep`, `fields_of_free` reduce every fact about words to cutting at one separator.
* **`fields_intercalate`**: words put together with separators and cut again are the same words.
* **`fields_squeeze`**: squeezing runs of separators changes no words.
* **`marked_eq_iff`**: marked lists of words agree with marked words only where each list is its one
  word.
-/

namespace Words

variable {α β : Type*}

/-- The nonempty pieces between separators. -/
def fields (isSep : α → Bool) (s : List α) : List (List α) :=
  (s.splitOnP isSep).filter fun w => !w.isEmpty

variable {isSep isSep' : α → Bool} {c : α} {s w : List α}

@[simp] theorem fields_nil (isSep : α → Bool) : fields isSep [] = [] := by
  simp [fields, List.splitOnP_nil]

theorem fields_append_sep (hc : isSep c = true) (p q : List α) :
    fields isSep (p ++ c :: q) = fields isSep p ++ fields isSep q := by
  rw [fields, List.splitOnP_append_cons p q hc, List.filter_append]
  rfl

theorem fields_cons_sep (hc : isSep c = true) (q : List α) :
    fields isSep (c :: q) = fields isSep q := by
  have h := fields_append_sep hc [] q
  rwa [List.nil_append, fields_nil, List.nil_append] at h

theorem fields_of_free (h : ∀ c ∈ w, isSep c = false) (hw : w ≠ []) : fields isSep w = [w] := by
  rw [fields, List.splitOnP_eq_singleton h]
  simp [hw]

/-- Pieces between separators have no separators, and nothing that is not in the line. -/
theorem free_of_mem_splitOnP (h : w ∈ s.splitOnP isSep) : ∀ c ∈ w, isSep c = false ∧ c ∈ s := by
  induction s generalizing w with
  | nil =>
    rw [List.splitOnP_nil, List.mem_singleton] at h
    simp [h]
  | cons d s ih =>
    have hmore : ∀ v ∈ s.splitOnP isSep, ∀ c ∈ v, isSep c = false ∧ c ∈ d :: s := fun v hv c hc =>
      ⟨(ih hv c hc).1, List.mem_cons_of_mem d (ih hv c hc).2⟩
    rw [List.splitOnP_cons_eq_if_modifyHead] at h
    split at h
    · rcases List.mem_cons.mp h with rfl | h
      · simp
      · exact hmore w h
    · rename_i hd
      obtain ⟨v, vs, hvs⟩ := List.exists_cons_of_ne_nil (List.splitOnP_ne_nil isSep s)
      rw [hvs] at hmore
      rw [hvs, List.modifyHead_cons] at h
      rcases List.mem_cons.mp h with rfl | h
      · intro c hc
        rcases List.mem_cons.mp hc with rfl | hc
        · exact ⟨(Bool.not_eq_true _).mp hd, List.mem_cons_self⟩
        · exact hmore v List.mem_cons_self c hc
      · exact hmore w (List.mem_cons_of_mem v h)

theorem mem_fields (h : w ∈ fields isSep s) : w ≠ [] ∧ ∀ c ∈ w, isSep c = false ∧ c ∈ s := by
  obtain ⟨hmem, hne⟩ := List.mem_filter.mp h
  exact ⟨by simpa using hne, free_of_mem_splitOnP hmem⟩

/-- A line is its only word if it is not empty and has no separators. -/
theorem fields_eq_self_iff : fields isSep w = [w] ↔ w ≠ [] ∧ ∀ c ∈ w, isSep c = false :=
  ⟨fun h => (mem_fields (h ▸ List.mem_singleton_self w)).imp_right fun hw c hc => (hw c hc).1,
    fun h => fields_of_free h.2 h.1⟩

/-- **Join and split.** -/
theorem fields_intercalate (isSep : α → Bool) (hc : isSep c = true) {ws : List (List α)}
    (h : ∀ w ∈ ws, w ≠ [] ∧ ∀ d ∈ w, isSep d = false) :
    fields isSep (List.intercalate [c] ws) = ws := by
  induction ws with
  | nil => exact fields_nil isSep
  | cons w ws ih =>
    obtain ⟨hw, hfree⟩ := h w List.mem_cons_self
    cases ws with
    | nil => rw [List.intercalate_singleton, fields_of_free hfree hw]
    | cons v vs =>
      rw [List.intercalate_cons_cons, List.append_assoc, List.singleton_append,
        fields_append_sep hc, fields_of_free hfree hw,
        ih fun u hu => h u (List.mem_cons_of_mem w hu)]
      rfl

/-! ### Translating and squeezing -/

/-- Replacing separators by other separators changes no words. -/
theorem fields_map (f : α → α) (hsep : ∀ c, isSep c = true → isSep' (f c) = true)
    (hfree : ∀ c, isSep c = false → f c = c ∧ isSep' c = false) (s : List α) :
    fields isSep' (s.map f) = fields isSep s := by
  have hsplit : (s.map f).splitOnP isSep' = s.splitOnP isSep := by
    induction s with
    | nil => rfl
    | cons c s ih =>
      rw [List.map_cons, List.splitOnP_cons_eq_if_modifyHead, List.splitOnP_cons_eq_if_modifyHead, ih]
      cases hc : isSep c with
      | true => rw [if_pos (hsep c hc), if_pos rfl]
      | false =>
        obtain ⟨hfc, hc'⟩ := hfree c hc
        rw [hfc, hc']
  rw [fields, fields, hsplit]

variable [DecidableEq α]

/-- Several `b` in a row become one. -/
def squeeze (b : α) : List α → List α
  | [] => []
  | c :: s => if c = b ∧ s.head? = some b then squeeze b s else c :: squeeze b s

/-- **Squeezing.** -/
theorem fields_squeeze {b : α} (hb : isSep b = true) (s : List α) :
    fields isSep (squeeze b s) = fields isSep s := by
  -- what stands before has to be free, as it may end in a part of a word
  suffices h : ∀ p, fields isSep (p ++ squeeze b s) = fields isSep (p ++ s) from h []
  induction s with
  | nil => exact fun _ => rfl
  | cons c s ih =>
    intro p
    rw [squeeze]
    split
    · rename_i h
      obtain ⟨rfl, hhead⟩ := h
      obtain ⟨t, rfl⟩ : ∃ t, s = c :: t := by
        cases s with
        | nil => exact absurd hhead (by simp)
        | cons d t => exact ⟨t, by rw [Option.some.inj hhead]⟩
      rw [ih p, fields_append_sep hb, fields_append_sep hb, fields_cons_sep hb]
    · have hlong := ih (p ++ [c])
      rwa [List.append_assoc, List.append_assoc, List.singleton_append, List.singleton_append] at hlong

omit [DecidableEq α]

/-! ### Marked words -/

/-- The mark before each word, and in place of the word what becomes of it. -/
def marked (mark : β) (becomes : β → List β) (vs : List β) : List β :=
  vs.flatMap fun v => mark :: becomes v

/-- Words that each become something are one word together only if there is one word. -/
theorem flatMap_eq_singleton_iff {becomes : α → List β} (hne : ∀ x, becomes x ≠ []) {xs : List α}
    {y : β} : xs.flatMap becomes = [y] ↔ ∃ x, xs = [x] ∧ becomes x = [y] := by
  constructor
  · intro h
    match xs, h with
    | [], h => exact absurd h (by simp)
    | [x], h => exact ⟨x, rfl, by simpa using h⟩
    | x :: x' :: xs, h =>
      have hlen := congrArg List.length h
      have hx := List.length_pos_iff.mpr (hne x)
      have hx' := List.length_pos_iff.mpr (hne x')
      simp only [List.flatMap_cons, List.length_append, List.length_singleton] at hlen
      omega
  · rintro ⟨x, rfl, hx⟩
    rw [List.flatMap_singleton, hx]

/-- What is left over in front cannot be caught up with: only a word that becomes nothing could do it, and
then the mark would stand in its place. -/
theorem marked_surplus {mark : β} {becomes : β → List β} (hmark : becomes mark ≠ []) {vs p : List β}
    (h : p ++ marked mark becomes vs = marked mark (fun v => [v]) vs) :
    p = [] ∧ ∀ v ∈ vs, becomes v = [v] := by
  induction vs generalizing p with
  | nil => exact ⟨by simpa [marked] using h, by simp⟩
  | cons v vs ih =>
    simp only [marked, List.flatMap_cons] at h ih
    match p, h with
    | [], h =>
      have hrest := (List.cons.inj h).2
      cases hv : becomes v with
      | nil =>
        exfalso
        rw [hv] at hrest
        cases vs with
        | nil => exact absurd hrest (by simp)
        | cons u us =>
          have hmv : mark = v := (List.cons.inj hrest).1
          exact hmark (hmv ▸ hv)
      | cons x q =>
        rw [hv] at hrest
        obtain ⟨rfl, hq⟩ := List.cons.inj hrest
        obtain ⟨rfl, hall⟩ := ih hq
        refine ⟨rfl, fun u hu => ?_⟩
        rcases List.mem_cons.mp hu with rfl | hu
        · exact hv
        · exact hall u hu
    | [x], h =>
      exfalso
      have hrest := (List.cons.inj h).2
      obtain ⟨rfl, hq⟩ := List.cons.inj hrest
      exact hmark (ih hq).1
    | x :: y :: p, h =>
      exfalso
      have hrest : p ++ (mark :: becomes v ++ vs.flatMap fun u => mark :: becomes u) =
          vs.flatMap fun u => [mark, u] := (List.cons.inj (List.cons.inj h).2).2
      rw [← List.append_assoc] at hrest
      exact absurd (ih hrest).1 (by simp)

/-- **Marked words.**  Each word is itself again if and only if all of them put together are. -/
theorem marked_eq_iff {mark : β} {becomes : β → List β} (hmark : becomes mark ≠ [])
    (vs : List β) :
    marked mark becomes vs = marked mark (fun v => [v]) vs ↔ ∀ v ∈ vs, becomes v = [v] := by
  refine ⟨fun h => (marked_surplus hmark (p := []) h).2, fun h => ?_⟩
  induction vs with
  | nil => rfl
  | cons v vs ih =>
    have hrest := ih fun u hu => h u (List.mem_cons_of_mem v hu)
    simp only [marked, List.flatMap_cons] at hrest ⊢
    rw [h v List.mem_cons_self, hrest]

end Words
