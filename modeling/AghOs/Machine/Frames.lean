import AghOs.Machine.Reach
import Mathlib.Data.Fintype.Basic
import Mathlib.Logic.Function.Basic
import Mathlib.Order.Defs.LinearOrder
import Mathlib.Tactic.Common

/-!
# Several senders on one byte stream

A message goes over a byte stream as a frame, a header and a body. Each sender
appends the header and the body of its message in two steps, and nothing keeps
the others from appending in between.

* `Format.decodes_of_whole`: if no header is appended while another sender is
  between its two steps, the stream decodes to the messages sent.
* `Format.decodes_iff`: it is the only way, for formats in which two headers in
  a row are not the start of a message that is sent.
-/

namespace AghOs

variable {ι μ β : Type*} {κ : ι → Type*}

/-- How messages are laid out on a stream; `parse` takes the first one off. -/
structure Format (μ β : Type*) where
  header : μ → List β
  body : μ → List β
  parse : List β → Option (μ × List β)
  header_ne_nil : ∀ m, header m ≠ []
  parse_frame : ∀ m rest, parse (header m ++ body m ++ rest) = some (m, rest)

namespace Format

variable (F : Format μ β)

/-- A whole message. -/
def frame (m : μ) : List β := F.header m ++ F.body m

/-- `n` messages taken off a stream. -/
def parseN : ℕ → List β → Option (List μ × List β)
  | 0, st => some ([], st)
  | n + 1, st => (F.parse st).bind fun p => (parseN n p.2).map fun q => (p.1 :: q.1, q.2)

variable {F}

theorem parseN_frames (ms : List μ) (n : ℕ) (rest : List β) :
    F.parseN (ms.length + n) (ms.flatMap F.frame ++ rest) =
      (F.parseN n rest).map fun q => (ms ++ q.1, q.2) := by
  induction ms with
  | nil => simp
  | cons m ms ih =>
    have hlen : (m :: ms).length + n = (ms.length + n) + 1 := by simp; omega
    have hst : (m :: ms).flatMap F.frame ++ rest
        = F.header m ++ F.body m ++ (ms.flatMap F.frame ++ rest) := by simp [frame]
    rw [hlen, hst, parseN, F.parse_frame, Option.bind_some, ih, Option.map_map]
    rfl

/-- Messages that are followed by something which is not the start of a message
    among `P` are not decoded as messages among `P`. -/
theorem parseN_ne {P : μ → Prop} {l xs : List μ} {bad : List β} (hne : bad ≠ [])
    (hbad : ∀ x rest, F.parse bad = some (x, rest) → ¬P x) (hxs : ∀ x ∈ xs, P x) :
    F.parseN xs.length (l.flatMap F.frame ++ bad) ≠ some (xs, []) := by
  intro h
  obtain hle | hlt := le_or_gt xs.length l.length
  · -- the calls return messages of `l` only, and `bad` is left on the stream
    have hl : l.flatMap F.frame ++ bad = (l.take xs.length).flatMap F.frame ++
        ((l.drop xs.length).flatMap F.frame ++ bad) := by
      rw [← List.append_assoc, ← List.flatMap_append, List.take_append_drop]
    have hlen : (l.take xs.length).length = xs.length := by simp [hle]
    have hp := parseN_frames (F := F) (l.take xs.length) 0
      ((l.drop xs.length).flatMap F.frame ++ bad)
    rw [Nat.add_zero, hlen, ← hl, h] at hp
    simp [parseN, hne] at hp
  · obtain ⟨n, hn⟩ : ∃ n, xs.length = l.length + (n + 1) :=
      ⟨xs.length - l.length - 1, by omega⟩
    rw [hn, parseN_frames, parseN] at h
    obtain ⟨⟨ys, r⟩, hp, hq⟩ := Option.map_eq_some_iff.mp h
    obtain ⟨⟨x, st⟩, hx, hr⟩ := Option.bind_eq_some_iff.mp hp
    obtain ⟨⟨zs, r'⟩, -, hzs⟩ := Option.map_eq_some_iff.mp hr
    simp only [Prod.mk.injEq] at hq hzs
    refine hbad x st hx (hxs x ?_)
    simp [← hq.1, ← hzs.1]

end Format

/-- The stream; per sender, the message whose body is still to come, and those
    it has sent. -/
structure Senders (ι μ β : Type*) where
  stream : List β
  sending : ι → Option μ
  sent : ι → List μ

/-- Sender `i` appends a header, for the message it makes of `k`, or a body. -/
inductive SendLabel (ι : Type*) (κ : ι → Type*)
  | header (i : ι) (k : κ i)
  | body (i : ι)

/-- No sender is between its two steps. -/
def Senders.Quiet (s : Senders ι μ β) : Prop := ∀ i, s.sending i = none

/-- `xs` has the elements of every `l i`, each once and in their order. -/
def IsMerge [DecidableEq ι] (l : ι → List μ) (xs : List μ) : Prop :=
  ∃ ts : List (ι × μ), ts.map Prod.snd = xs ∧
    ∀ i, (ts.filter fun t => t.1 = i).map Prod.snd = l i

theorem IsMerge.mem [DecidableEq ι] {l : ι → List μ} {xs : List μ} (h : IsMerge l xs) {x : μ}
    (hx : x ∈ xs) : ∃ i, x ∈ l i := by
  obtain ⟨ts, rfl, hl⟩ := h
  obtain ⟨⟨i, m⟩, hm, rfl⟩ := List.mem_map.mp hx
  exact ⟨i, hl i ▸ List.mem_map.mpr ⟨(i, m), by simpa using hm, rfl⟩⟩

namespace Format

variable [DecidableEq ι] (F : Format μ β) (msg : ∀ i, κ i → μ)

/-- Successive `parse` calls return exactly the messages sent. -/
def Decodes (s : Senders ι μ β) : Prop :=
  ∃ ms, IsMerge s.sent ms ∧ F.parseN ms.length s.stream = some (ms, [])

/-- The senders as a machine; sender `i` sends the messages `msg i k`. -/
def senders : Machine (Senders ι μ β) (SendLabel ι κ) where
  init s := s = ⟨[], fun _ => none, fun _ => []⟩
  next s
    | .header i k =>
      match s.sending i with
      | none => some { s with
          stream := s.stream ++ F.header (msg i k)
          sending := Function.update s.sending i (some (msg i k)) }
      | some _ => none
    | .body i =>
      match s.sending i with
      | none => none
      | some m => some {
          stream := s.stream ++ F.body m
          sending := Function.update s.sending i none
          sent := Function.update s.sent i (s.sent i ++ [m]) }

/-- A header is only appended when no sender is between its two steps. -/
def Whole (s : Senders ι μ β) : SendLabel ι κ → Prop
  | .header _ _ => s.Quiet
  | .body _ => True

instance [Fintype ι] (s : Senders ι μ β) : DecidablePred (Whole (κ := κ) s)
  | .header _ _ => inferInstanceAs (Decidable (∀ i, s.sending i = none))
  | .body _ => inferInstanceAs (Decidable True)

variable {F msg}

/-- What a run of whole frames leaves: whole frames, followed by the header of
    the one sender that is between its two steps, if there is one. -/
structure Clean (F : Format μ β) (s : Senders ι μ β) : Prop where
  stream : ∃ ts : List (ι × μ), (∀ i, (ts.filter fun t => t.1 = i).map Prod.snd = s.sent i) ∧
    (s.Quiet ∧ s.stream = (ts.map Prod.snd).flatMap F.frame ∨
      ∃ i m, s.sending i = some m ∧ (∀ j, j ≠ i → s.sending j = none) ∧
        s.stream = (ts.map Prod.snd).flatMap F.frame ++ F.header m)

theorem reachIf_clean {s : Senders ι μ β} (h : (F.senders msg).ReachIf Whole s) : F.Clean s := by
  refine Machine.ReachIf.invariant h (fun s h0 => ?_) fun s l s' hI hok hn => ?_
  · cases h0
    exact ⟨[], fun _ => rfl, .inl ⟨fun _ => rfl, rfl⟩⟩
  · obtain ⟨ts, hts, hst⟩ := hI
    cases l with
    | header i k =>
      -- nobody is sending, so the stream is made of whole frames
      simp only [senders, hok i, Option.some.injEq] at hn
      cases hn
      obtain ⟨-, hst⟩ | ⟨j, m, hj, -, -⟩ := hst
      · refine ⟨ts, hts, .inr ⟨i, msg i k, by simp, fun j hj => ?_, by simp [hst]⟩⟩
        simpa [Function.update_of_ne hj] using hok j
      · rw [hok j] at hj
        cases hj
    | body i =>
      simp only [senders] at hn
      split at hn
      · cases hn
      · rename_i m hm
        cases hn
        obtain ⟨hq, -⟩ | ⟨j, m', hj, hother, hst⟩ := hst
        · rw [hq i] at hm
          cases hm
        · obtain rfl : i = j := by
            by_contra hij
            rw [hother i hij] at hm
            cases hm
          obtain rfl : m' = m := by simpa [hj] using hm
          refine ⟨ts ++ [(i, m')], fun l => ?_, .inl ⟨fun l => ?_, ?_⟩⟩
          · by_cases hl : l = i
            · subst hl; simp [hts]
            · simp [Function.update_of_ne hl, hts, Ne.symm hl]
          · by_cases hl : l = i
            · subst hl; simp
            · simpa [Function.update_of_ne hl] using hother l hl
          · simp [hst, frame]

/-- Frames that are sent whole are decoded. -/
theorem decodes_of_whole {s : Senders ι μ β} (h : (F.senders msg).ReachIf Whole s)
    (hq : s.Quiet) : F.Decodes s := by
  obtain ⟨ts, hts, ⟨-, hst⟩ | ⟨i, m, hi, -⟩⟩ := reachIf_clean h
  · refine ⟨ts.map Prod.snd, ⟨ts, rfl, hts⟩, ?_⟩
    simpa [parseN, hst] using parseN_frames (F := F) (ts.map Prod.snd) 0 []
  · rw [hq i] at hi
    cases hi

/-- Two headers in a row on the stream. -/
def Torn (F : Format μ β) (msg : ∀ i, κ i → μ) (s : Senders ι μ β) : Prop :=
  ∃ (ms : List μ) (i : ι) (k : κ i) (j : ι) (k' : κ j) (rest : List β),
    s.stream = ms.flatMap F.frame ++ (F.header (msg i k) ++ F.header (msg j k') ++ rest)

theorem Torn.step {s s' : Senders ι μ β} {l : SendLabel ι κ} (h : F.Torn msg s)
    (hn : (F.senders msg).next s l = some s') : F.Torn msg s' := by
  obtain ⟨ms, i, k, j, k', rest, hst⟩ := h
  have happ : ∀ bs, s'.stream = s.stream ++ bs → F.Torn msg s' := fun bs hbs =>
    ⟨ms, i, k, j, k', rest ++ bs, by simp [hbs, hst]⟩
  cases l <;> simp only [senders] at hn <;> split at hn <;> cases hn <;> exact happ _ rfl

/-- What is sent, or being sent, is a message of its sender. -/
theorem reach_msg {s : Senders ι μ β} (h : (F.senders msg).Reach s) (i : ι) :
    (∀ m, s.sending i = some m → ∃ k, m = msg i k) ∧ ∀ m ∈ s.sent i, ∃ k, m = msg i k := by
  refine Machine.ReachIf.invariant (I := fun s : Senders ι μ β =>
    (∀ m, s.sending i = some m → ∃ k, m = msg i k) ∧ ∀ m ∈ s.sent i, ∃ k, m = msg i k)
    h (fun s h0 => ?_) fun s l s' hI _ hn => ?_
  · cases h0
    simp
  · obtain ⟨hsending, hsent⟩ := hI
    cases l with
    | header j k =>
      simp only [senders] at hn
      split at hn <;> cases hn
      refine ⟨fun m hm => ?_, hsent⟩
      by_cases hij : i = j
      · subst hij
        exact ⟨k, by simpa using hm.symm⟩
      · exact hsending m (by simpa [Function.update_of_ne hij] using hm)
    | body j =>
      simp only [senders] at hn
      split at hn <;> cases hn
      rename_i m' hm'
      by_cases hij : i = j
      · subst hij
        refine ⟨by simp, fun m hm => ?_⟩
        obtain hm | rfl : m ∈ s.sent i ∨ m = m' := by simpa using hm
        · exact hsent m hm
        · exact hsending m hm'
      · simpa [Function.update_of_ne hij] using And.intro hsending hsent

theorem torn_of_not_whole {s s' : Senders ι μ β} {l : SendLabel ι κ}
    (hr : (F.senders msg).ReachIf Whole s) (hbad : ¬Whole s l)
    (hn : (F.senders msg).next s l = some s') : F.Torn msg s' := by
  cases l with
  | body i => exact absurd trivial hbad
  | header i k =>
    obtain ⟨ts, -, ⟨hq, -⟩ | ⟨j, m, hj, -, hst⟩⟩ := reachIf_clean hr
    · exact absurd hq hbad
    · obtain ⟨k', rfl⟩ := (reach_msg hr.reach j).1 m hj
      simp only [senders] at hn
      split at hn <;> cases hn
      exact ⟨ts.map Prod.snd, j, k', i, k, [], by simp [hst]⟩

/-- The messages sent are decoded if and only if their frames were sent whole,
    provided that two headers in a row do not start a message that is sent. -/
theorem decodes_iff
    (htorn : ∀ i k j k' rest x rest',
      F.parse (F.header (msg i k) ++ F.header (msg j k') ++ rest) = some (x, rest') →
        ∀ l k'', x ≠ msg l k'')
    {s : Senders ι μ β} (h : (F.senders msg).Reach s) (hq : s.Quiet) :
    F.Decodes s ↔ (F.senders msg).ReachIf Whole s := by
  refine ⟨fun hd => ?_, fun hw => decodes_of_whole hw hq⟩
  obtain hw | ⟨ms, i, k, j, k', rest, hst⟩ := Machine.Reach.reachIf_or (C := Whole)
    (L := F.Torn msg) h (fun _ _ _ hr hbad hn => torn_of_not_whole hr hbad hn)
    fun _ _ _ _ hL hn => hL.step hn
  · exact hw
  · obtain ⟨xs, hxs, hp⟩ := hd
    rw [hst] at hp
    refine absurd hp (parseN_ne (P := fun x => ∃ l k'', x = msg l k'') ?_ ?_ fun x hx => ?_)
    · simp [F.header_ne_nil]
    · rintro x rest' hx ⟨l, k'', hl⟩
      exact htorn i k j k' rest x rest' hx l k'' hl
    · obtain ⟨l, hl⟩ := hxs.mem hx
      exact ⟨l, (reach_msg h l).2 x hl⟩

end Format
end AghOs
