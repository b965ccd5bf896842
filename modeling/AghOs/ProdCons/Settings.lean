import AghOs.Machine.Updates
import AghOs.ProdCons.Config

/-!
# What a configuration file says

The lines of a configuration file are updates of `struct cl`, and each field is
changed by the lines with its key only.

* `read_config`: every field is given by the last line with its key, or has its
  default, or the value from before; and lines with different keys can be permuted.
-/

namespace AghOs.ProdCons.Config

/-! ## The last line with a key -/

/-- The settings of the lines, in their order. -/
def settings (lines : List Line) : List Setting := lines.filterMap Line.setting?

/-- The last value, if there is one. -/
def last {α : Type} (val : Setting → Option α) (ss : List Setting) : Option α :=
  (ss.filterMap val).getLast?

namespace Setting

def number? (k : NumberKey) : Setting → Option ℤ
  | number k' n => if k' = k then some n.num.value else none
  | _ => none

def file? : Setting → Option (List UInt8)
  | file name => some name.text
  | _ => none

def length? : Setting → Option (Comparison × ℤ)
  | length cmp n => some (cmp, n.num.value)
  | _ => none

end Setting

/-- The default of a field that has one. -/
def NumberKey.default? : NumberKey → Option ℤ
  | timeLimit | verbose | sleep => some 0
  | producers | consumers | bufferSize => none

/-- The file name, as a C string. -/
def Cl.file (cl : Cl) : List UInt8 := cl.filename.takeWhile (· ≠ 0)

/-- `cl'` is what the settings make of `cl`. -/
structure Configured (cl : Cl) (ss : List Setting) (cl' : Cl) : Prop where
  number : ∀ k, cl'.number k = (last (Setting.number? k) ss).getD (k.default?.getD (cl.number k))
  length : (cl'.cmp, cl'.lineLength) = (last Setting.length? ss).getD (.gt, -1)
  file : cl'.file = (last Setting.file? ss).getD cl.file
  filename : (∀ s ∈ ss, s.key ≠ .file) → cl'.filename = cl.filename

/-- For each key the lines with this key are the same, in the same order. -/
def SameByKey (lines lines' : List Line) : Prop :=
  ∀ k : Key, (settings lines).filter (·.key = k) = (settings lines').filter (·.key = k)

/-- Two neighbours with different keys change places. -/
theorem SameByKey.swap {l l' : Line} (h : ∀ s ∈ l.setting?, ∀ s' ∈ l'.setting?, s.key ≠ s'.key)
    (xs ys : List Line) : SameByKey (xs ++ l :: l' :: ys) (xs ++ l' :: l :: ys) := by
  intro k
  simp only [settings, List.filterMap_append, List.filter_append, List.append_cancel_left_eq,
    List.filterMap_cons]
  cases hl : l.setting? with
  | none => rfl
  | some s =>
    cases hl' : l'.setting? with
    | none => rfl
    | some s' =>
      have hne : s.key ≠ s'.key := h s hl s' hl'
      by_cases hk : s.key = k
      · have hk' : s'.key ≠ k := fun hk' => hne (hk.trans hk'.symm)
        simp [hk, hk']
      · simp [List.filter_cons, hk]

/-! ## Fields -/

theorem Cl.number_setNumber (cl : Cl) (v : ℤ) (k k' : NumberKey) :
    (cl.setNumber v k').number k = if k' = k then v else cl.number k := by
  cases k <;> cases k' <;> rfl

theorem Cl.file_strcpy (cl : Cl) (name : FileName) :
    (cl.strcpy name.text name.length).file = name.text := by
  have hne : ∀ b ∈ name.text, decide (b ≠ 0) = true := fun b hb =>
    decide_eq_true (name.token.chars b hb).1
  show (name.text ++ 0 :: _).takeWhile (· ≠ 0) = _
  rw [List.takeWhile_append_of_pos hne]
  simp

theorem Cl.setNumber_rest (cl : Cl) (v : ℤ) (k : NumberKey) :
    (cl.setNumber v k).filename = cl.filename ∧ (cl.setNumber v k).cmp = cl.cmp ∧
      (cl.setNumber v k).lineLength = cl.lineLength := by
  cases k <;> exact ⟨rfl, rfl, rfl⟩

theorem apply_number (k : NumberKey) (cl : Cl) (s : Setting) :
    (s.apply cl).number k = (s.number? k).getD (cl.number k) := by
  cases s with
  | number k' n =>
    show (cl.setNumber n.num.value k').number k = (if k' = k then some n.num.value else none).getD _
    rw [cl.number_setNumber]
    split <;> rfl
  | file name => cases k <;> rfl
  | length cmp n => cases k <;> rfl

theorem apply_length (cl : Cl) (s : Setting) :
    ((s.apply cl).cmp, (s.apply cl).lineLength) = s.length?.getD (cl.cmp, cl.lineLength) := by
  cases s with
  | number k n => exact Prod.ext (cl.setNumber_rest _ k).2.1 (cl.setNumber_rest _ k).2.2
  | file name => rfl
  | length cmp n => rfl

theorem apply_file (cl : Cl) (s : Setting) :
    (s.apply cl).file = s.file?.getD cl.file := by
  cases s with
  | number k n => exact congrArg (List.takeWhile (· ≠ 0)) (cl.setNumber_rest _ k).1
  | file name => exact cl.file_strcpy name
  | length cmp n => rfl

/-- Only the lines `file` write to the array. -/
theorem local_filename : Local Setting.apply Cl.filename (·.key = .file) where
  frame cl s hs := by
    cases s with
    | number k n => exact (cl.setNumber_rest _ k).1
    | file name => cases hs
    | length cmp n => rfl
  own cl cl' s hs h := by
    cases s with
    | number k n => cases hs
    | file name =>
      show name.text ++ 0 :: cl.filename.drop _ = name.text ++ 0 :: cl'.filename.drop _
      rw [h]
    | length cmp n => cases hs

theorem local_number (k : NumberKey) :
    Local Setting.apply (Cl.number · k) (·.key = .number k) := by
  refine .of_last (apply_number k) fun s hs => ?_
  cases s with
  | number k' n => exact if_neg fun hk => (decide_eq_false_iff_not.mp hs) (congrArg Key.number hk)
  | file name => rfl
  | length cmp n => rfl

theorem local_length :
    Local Setting.apply (fun cl => (cl.cmp, cl.lineLength)) (·.key = .length) := by
  refine .of_last apply_length fun s hs => ?_
  cases s with
  | number k n => rfl
  | file name => rfl
  | length cmp n => cases hs

/-! ## The result -/

theorem Cl.ext_fields {cl cl' : Cl} (hnumber : ∀ k, cl.number k = cl'.number k)
    (hfile : cl.filename = cl'.filename)
    (hlength : (cl.cmp, cl.lineLength) = (cl'.cmp, cl'.lineLength)) : cl = cl' :=
  Cl.ext (hnumber .producers) (hnumber .consumers) (hnumber .bufferSize) hfile
    (Prod.ext_iff.mp hlength).2 (Prod.ext_iff.mp hlength).1 (hnumber .timeLimit)
    (hnumber .verbose) (hnumber .sleep)

theorem foldl_settings (lines : List Line) (cl : Cl) :
    lines.foldl Line.apply cl = (settings lines).foldl Setting.apply cl := by
  unfold settings
  rw [List.foldl_filterMap]
  congr 1
  funext cl l
  cases l <;> rfl

theorem clReadConfig_fileText (newline : Bool) {lines : List Line}
    (hlines : ∀ l ∈ lines, l.text.length < bufS) {t : TokenBuffer} (ht : t.buf.length = bufS)
    (cl : Cl) :
    clReadConfig cl t (fileText newline lines) =
      some (0, (settings lines).foldl Setting.apply cl.defaults) := by
  rw [← foldl_settings]
  exact configLoop_fileText newline hlines ht cl.defaults

theorem configured (cl : Cl) (ss : List Setting) :
    Configured cl ss (ss.foldl Setting.apply cl.defaults) where
  number k := by
    have h := foldl_last Setting.apply (Cl.number · k) (apply_number k) ss cl.defaults
    have hdefault : cl.defaults.number k = k.default?.getD (cl.number k) := by cases k <;> rfl
    rw [hdefault] at h
    exact h
  length := foldl_last Setting.apply (fun cl => (cl.cmp, cl.lineLength)) apply_length ss cl.defaults
  file := foldl_last Setting.apply Cl.file apply_file ss cl.defaults
  filename h := by
    have hnone : ss.filter (·.key = .file) = [] :=
      List.filter_eq_nil_iff.mpr fun s hs => by simpa using h s hs
    rw [local_filename.foldl_filter ss rfl, hnone]
    rfl

theorem SameByKey.foldl_eq {lines lines' : List Line} (h : SameByKey lines lines') (cl : Cl) :
    (settings lines).foldl Setting.apply cl = (settings lines').foldl Setting.apply cl :=
  Cl.ext_fields (fun k => (local_number k).foldl_congr (h (.number k)) cl)
    (local_filename.foldl_congr (h .file) cl) (local_length.foldl_congr (h .length) cl)

/-- A file of empty and well-formed lines, with or without a newline at its end, is
    read; each field is given by the last line with its key. A file with the same lines
    for each key gives the same. -/
theorem read_config (newline : Bool) {lines : List Line}
    (hlines : ∀ l ∈ lines, l.text.length < bufS) {t : TokenBuffer} (ht : t.buf.length = bufS)
    (cl : Cl) :
    ∃ cl', clReadConfig cl t (fileText newline lines) = some (0, cl') ∧
      Configured cl (settings lines) cl' ∧
      ∀ (newline' : Bool) (lines' : List Line) (t' : TokenBuffer),
        (∀ l ∈ lines', l.text.length < bufS) → t'.buf.length = bufS → SameByKey lines lines' →
          clReadConfig cl t' (fileText newline' lines') = some (0, cl') := by
  refine ⟨_, clReadConfig_fileText newline hlines ht cl, configured cl _, ?_⟩
  intro newline' lines' t' hlines' ht' hsame
  rw [clReadConfig_fileText newline' hlines' ht', hsame.foldl_eq]

def emptyCl : Cl where
  producers := 0
  consumers := 0
  bufferSize := 0
  filename := List.replicate 256 0
  lineLength := 0
  cmp := .eq
  timeLimit := 7
  verbose := 0
  sleep := 0
  filename_length := List.length_replicate

/-- `10` -/
def ten : IntText :=
  ⟨⟨.none, [49, 48], List.cons_ne_nil _ _, by simp [isDigit]⟩, by decide, by decide⟩

/-- `5` -/
def five : IntText :=
  ⟨⟨.none, [53], List.cons_ne_nil _ _, by simp [isDigit]⟩, by decide, by decide⟩

/-- `producers = 10`, an empty line, `length=<10`, and `producers = 5` without a newline. -/
theorem read_config_producers :
    ∃ cl', clReadConfig emptyCl ⟨List.replicate 4096 1, none⟩
        [112, 114, 111, 100, 117, 99, 101, 114, 115, 32, 61, 32, 49, 48, 10, 10,
          108, 101, 110, 103, 116, 104, 61, 60, 49, 48, 10,
          112, 114, 111, 100, 117, 99, 101, 114, 115, 32, 61, 32, 53] = some (0, cl') ∧
      cl'.producers = 5 ∧ cl'.cmp = .lt ∧ cl'.lineLength = 10 ∧ cl'.timeLimit = 0 := by
  have hlines : ∀ l ∈ [Line.setting 0 1 1 0 (.number .producers ten), .empty,
      .setting 0 0 0 0 (.length .lt ten), .setting 0 1 1 0 (.number .producers five)],
      l.text.length < bufS := by decide
  have ht : (⟨List.replicate 4096 1, none⟩ : TokenBuffer).buf.length = bufS :=
    List.length_replicate
  obtain ⟨cl', hread, hconf, -⟩ := read_config false hlines ht emptyCl
  have hlength := Prod.ext_iff.mp hconf.length
  exact ⟨cl', hread, hconf.number .producers, hlength.1, hlength.2, hconf.number .timeLimit⟩

end AghOs.ProdCons.Config
