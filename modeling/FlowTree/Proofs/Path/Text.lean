import FlowTree.Path.Text

/-!
# FlowTree.Proofs.Path.Text

Texts of paths, and the paths that they are read as.

A text is its tokens with dots between them, so the reading of a path comes down to
the reading of a token.  A position is written in decimal, and a token that is read
as a position has no leading zero, so the decimal is the token again.  A key is
written as it stands, and is read back unless it looks like something else.

* `toDigits_ofDigitChars` — digits without a leading zero are the decimal of their
  value;
* `segmentOfToken_eq_ok_iff` — the tokens that are read as a given step;
* `parse_eq_ok_iff` — the texts that are read as a given path;
* `text_of_parse_and_parse_text_iff` — a text and its path determine each other.
-/

namespace FlowTree

/-! ## decimals -/

theorem digit_value_lt {c : Char} (hc : c.isDigit = true) : c.toNat - '0'.toNat < 10 := by
  simp only [Char.isDigit, Bool.and_eq_true, decide_eq_true_eq] at hc
  have hhigh : c.toNat ≤ 57 := hc.2
  simp only [Char.reduceToNat]
  omega

/-- The decimal of a digit's value is the digit. -/
theorem toDigits_digit_value {c : Char} (hc : c.isDigit = true) :
    Nat.toDigits 10 (c.toNat - '0'.toNat) = [c] := by
  have hvalue := digit_value_lt hc
  have hchar : (c.toNat - '0'.toNat).digitChar = c := by
    simp only [Char.isDigit, Bool.and_eq_true, decide_eq_true_eq] at hc
    have hlow : 48 ≤ c.toNat := hc.1
    rw [← Char.toNat_inj, Nat.toNat_digitChar_of_lt_ten hvalue]
    simp only [Char.reduceToNat]
    omega
  rw [Nat.toDigits_of_lt_base hvalue, hchar]

/-- Reading digits after a positive number writes them after its decimal. -/
theorem toDigits_ofDigitChars_of_pos {digits : List Char} {n : Nat} (hn : 0 < n)
    (hd : ∀ c ∈ digits, c.isDigit = true) :
    Nat.toDigits 10 (Nat.ofDigitChars 10 digits n) = Nat.toDigits 10 n ++ digits := by
  induction digits generalizing n with
  | nil => simp
  | cons c rest ih =>
    have hvalue := digit_value_lt (hd c List.mem_cons_self)
    have hdigit := toDigits_digit_value (hd c List.mem_cons_self)
    have hrest : ∀ c ∈ rest, c.isDigit = true := fun c h => hd c (List.mem_cons_of_mem _ h)
    calc Nat.toDigits 10 (Nat.ofDigitChars 10 (c :: rest) n)
        = Nat.toDigits 10 (10 * n + (c.toNat - '0'.toNat)) ++ rest := by
          rw [Nat.ofDigitChars_cons, ih (by omega) hrest]
      _ = Nat.toDigits 10 n ++ [c] ++ rest := by
          rw [← Nat.toDigits_append_toDigits (by decide) hn hvalue, hdigit]
      _ = Nat.toDigits 10 n ++ c :: rest := by simp

/-- The decimal of a positive number does not start with a zero. -/
theorem head?_toDigits_of_pos {n : Nat} (hn : 0 < n) :
    (Nat.toDigits 10 n).head? ≠ some '0' := by
  induction n using Nat.strongRecOn with
  | ind n ih =>
    rw [Nat.toDigits_eq_if (by decide)]
    split
    · simp only [List.head?_cons, ne_eq, Option.some.injEq, Nat.digitChar_eq_zero]
      omega
    · have hhead := ih (n / 10) (by omega) (by omega)
      obtain ⟨c, rest, hdigits⟩ := List.exists_cons_of_ne_nil (@Nat.toDigits_ne_nil (n / 10) 10)
      rw [hdigits] at hhead ⊢
      exact hhead

/-- Digits that start with a zero, and not with a leading one, are a single zero. -/
theorem eq_zero_of_head {digits : List Char} (hd : ∀ c ∈ digits, c.isDigit = true)
    (hz : Path.hasLeadingZero digits = false) (hhead : digits.head? = some '0') :
    digits = ['0'] := by
  have hall : digits.all Char.isDigit = true := List.all_eq_true.2 hd
  have hlength : digits.length ≤ 1 := by
    simpa [Path.hasLeadingZero, hhead, hall] using hz
  cases digits with
  | nil => simp at hhead
  | cons c rest =>
    have hrest : rest = [] := List.eq_nil_of_length_eq_zero (by simpa using hlength)
    have hc : c = '0' := by simpa using hhead
    rw [hc, hrest]

/-- Digits without a leading zero are the decimal of their value. -/
theorem toDigits_ofDigitChars {digits : List Char} (hne : digits ≠ [])
    (hd : ∀ c ∈ digits, c.isDigit = true) (hz : Path.hasLeadingZero digits = false) :
    Nat.toDigits 10 (Nat.ofDigitChars 10 digits 0) = digits := by
  cases digits with
  | nil => contradiction
  | cons c rest =>
    have hdigit := toDigits_digit_value (hd c List.mem_cons_self)
    have hrest : ∀ c ∈ rest, c.isDigit = true := fun c h => hd c (List.mem_cons_of_mem _ h)
    rw [Nat.ofDigitChars_cons, Nat.mul_zero, Nat.zero_add]
    by_cases hzero : c.toNat - '0'.toNat = 0
    · -- a zero in front stands alone
      have hc : c = '0' := by
        rw [hzero, Nat.toDigits_zero] at hdigit
        simpa using hdigit.symm
      have hsingle : c :: rest = ['0'] := eq_zero_of_head hd hz (by rw [hc]; rfl)
      obtain ⟨-, rfl⟩ := List.cons_eq_cons.1 hsingle
      rw [Nat.ofDigitChars_nil, hdigit]
    · rw [toDigits_ofDigitChars_of_pos (by omega) hrest, hdigit, List.singleton_append]

/-! ## steps -/

namespace Segment

/-- The keys that are read back from their own text: those that neither end the
token, nor leave it empty, nor are taken for a position. -/
structure Spells (key : String) : Prop where
  nonempty : key ≠ ""
  no_dot : '.' ∉ key.toList
  /-- Digits alone are a key only when no position is as large. -/
  not_position : (∀ c ∈ key.toList, c.isDigit = true) →
    key.toList.head? ≠ some '0' ∧ indexLimit ≤ Nat.ofDigitChars 10 key.toList 0

/-- The steps that are read back from their own text. -/
def Readable : Segment → Prop
  | .name key => Spells key
  | .index position => position < indexLimit

@[simp] theorem toList_text_name (key : String) : (name key).text.toList = key.toList := rfl

@[simp] theorem toList_text_index (position : Nat) :
    (index position).text.toList = Nat.toDigits 10 position := by
  simp [text]

theorem isDigit_of_mem_text_index {position : Nat} {c : Char}
    (h : c ∈ (index position).text.toList) : c.isDigit = true := by
  rw [toList_text_index] at h
  exact Nat.isDigit_of_mem_toDigits (by decide) (by decide) h

theorem Readable.dot_notMem_text {s : Segment} (h : s.Readable) : '.' ∉ s.text.toList := by
  cases s with
  | name key => exact h.no_dot
  | index position =>
    intro hdot
    exact absurd (isDigit_of_mem_text_index hdot) (by decide)

end Segment

namespace Path

open Segment

theorem hasLeadingZero_eq_false_of_head {token : List Char} (h : token.head? ≠ some '0') :
    hasLeadingZero token = false := by
  simp [hasLeadingZero, h]

theorem hasLeadingZero_toDigits (n : Nat) : hasLeadingZero (Nat.toDigits 10 n) = false := by
  cases n with
  | zero => simp [hasLeadingZero]
  | succ n => exact hasLeadingZero_eq_false_of_head (head?_toDigits_of_pos n.succ_pos)

/-- A readable step is read from its own text. -/
theorem segmentOfToken_text {s : Segment} (h : s.Readable) (position : Nat) :
    segmentOfToken position s.text.toList = .ok s := by
  cases s with
  | index i =>
    have hall : (Nat.toDigits 10 i).all Char.isDigit = true :=
      List.all_eq_true.2 fun c hc => Nat.isDigit_of_mem_toDigits (by decide) (by decide) hc
    have hi : i < indexLimit := h
    simp [segmentOfToken, hasLeadingZero_toDigits, Nat.toDigits_ne_nil, ofToken, hall, hi]
  | name key =>
    have hne : key.toList ≠ [] := by simpa using h.nonempty
    by_cases hall : ∀ c ∈ key.toList, c.isDigit = true
    · obtain ⟨hhead, hlimit⟩ := h.not_position hall
      simp [segmentOfToken, hne, hasLeadingZero_eq_false_of_head hhead, ofToken,
        Nat.not_lt.2 hlimit]
    · have hall' : key.toList.all Char.isDigit = false := by
        rw [← Bool.not_eq_true, List.all_eq_true]
        exact hall
      simp [segmentOfToken, hne, hasLeadingZero, ofToken, hall']

/-- What a token without dots is read as, is written as the token and is readable. -/
theorem text_of_segmentOfToken {position : Nat} {token : List Char} {s : Segment}
    (h : segmentOfToken position token = .ok s) (hdot : '.' ∉ token) :
    s.text.toList = token ∧ s.Readable := by
  unfold segmentOfToken at h
  split at h
  · contradiction
  · rename_i hempty
    have hne : token ≠ [] := by simpa using hempty
    split at h
    · contradiction
    · rename_i hzero
      have hz : hasLeadingZero token = false := by simpa using hzero
      have hs : ofToken token = s := Except.ok.inj h
      subst hs
      unfold ofToken
      split
      · rename_i hpos
        obtain ⟨hall, hlimit⟩ := by simpa using hpos
        exact ⟨by rw [toList_text_index, toDigits_ofDigitChars hne hall hz], hlimit⟩
      · rename_i hpos
        have hlimit : token.all Char.isDigit = true →
            indexLimit ≤ Nat.ofDigitChars 10 token 0 := by simpa using hpos
        refine ⟨String.toList_ofList, ?_⟩
        exact {
          nonempty := by simpa using hne
          no_dot := by simpa using hdot
          not_position := by
            intro hdigits
            rw [String.toList_ofList] at hdigits ⊢
            have hall : token.all Char.isDigit = true := List.all_eq_true.2 hdigits
            have hvalue := hlimit hall
            refine ⟨?_, hvalue⟩
            intro hhead
            -- a single zero would be below the limit
            rw [eq_zero_of_head hdigits hz hhead] at hvalue
            exact absurd hvalue (by decide) }

/-- A token without dots is read as a step when the step is readable and has the
token for its text. -/
theorem segmentOfToken_eq_ok_iff {position : Nat} {token : List Char} {s : Segment}
    (hdot : '.' ∉ token) :
    segmentOfToken position token = .ok s ↔ s.text.toList = token ∧ s.Readable := by
  constructor
  · intro h
    exact text_of_segmentOfToken h hdot
  · rintro ⟨rfl, h⟩
    exact segmentOfToken_text h position

/-! ## paths -/

/-- Tokens are what stands between dots. -/
theorem tokens_eq_splitOn (text : List Char) : tokens text = text.splitOn '.' := by
  induction text with
  | nil => simp [tokens]
  | cons c rest ih =>
    rw [List.splitOn_cons_eq_if_modifyHead, ← ih, tokens]
    by_cases hc : c = '.'
    · simp [hc]
    · obtain ⟨token, others, htokens⟩ := List.exists_cons_of_ne_nil (tokens_ne_nil rest)
      simp [hc, htokens]

theorem dot_notMem_of_mem_tokens {text token : List Char} (h : token ∈ tokens text) :
    '.' ∉ token := by
  induction text generalizing token with
  | nil => simp_all [tokens]
  | cons c rest ih =>
    obtain ⟨first, others, htokens⟩ := List.exists_cons_of_ne_nil (tokens_ne_nil rest)
    rw [htokens] at ih
    rw [tokens, htokens] at h
    by_cases hc : c = '.'
    · rw [if_pos hc] at h
      cases List.mem_cons.1 h with
      | inl hnil => simp [hnil]
      | inr hmem => exact ih hmem
    · rw [if_neg hc] at h
      cases List.mem_cons.1 h with
      | inl hfirst =>
        have hdot := ih List.mem_cons_self
        simp [hfirst, hdot, Ne.symm hc]
      | inr hmem => exact ih (List.mem_cons_of_mem _ hmem)

/-- A row of tokens is read when its first token is, and the others are. -/
theorem segmentsOfTokens_cons_eq_ok_iff {position : Nat} {token : List Char}
    {rest : List (List Char)} {segments : List Segment} :
    segmentsOfTokens position (token :: rest) = .ok segments ↔
      ∃ s others, segmentOfToken position token = .ok s ∧
        segmentsOfTokens (position + 1) rest = .ok others ∧ segments = s :: others := by
  rw [segmentsOfTokens]
  cases segmentOfToken position token with
  | error e => simp [bind, Except.bind]
  | ok s =>
    cases segmentsOfTokens (position + 1) rest with
    | error e => simp [bind, Except.bind]
    | ok others => simp [bind, Except.bind, pure, Except.pure, eq_comm]

/-- Tokens without dots are read step by step. -/
theorem segmentsOfTokens_eq_ok_iff {position : Nat} {tokens : List (List Char)}
    {segments : List Segment} (hdot : ∀ token ∈ tokens, '.' ∉ token) :
    segmentsOfTokens position tokens = .ok segments ↔
      segments.map (fun s => s.text.toList) = tokens ∧ ∀ s ∈ segments, s.Readable := by
  induction tokens generalizing position segments with
  | nil =>
    simp only [segmentsOfTokens, Except.ok.injEq, List.map_eq_nil_iff]
    constructor
    · rintro rfl
      simp
    · intro h
      exact h.1.symm
  | cons token rest ih =>
    obtain ⟨hfirst, hrest⟩ := List.forall_mem_cons.1 hdot
    rw [segmentsOfTokens_cons_eq_ok_iff]
    constructor
    · rintro ⟨s, others, htoken, htokens, rfl⟩
      obtain ⟨htext, hread⟩ := (segmentOfToken_eq_ok_iff hfirst).1 htoken
      obtain ⟨htexts, hreads⟩ := (ih hrest).1 htokens
      exact ⟨by simp [htext, htexts], List.forall_mem_cons.2 ⟨hread, hreads⟩⟩
    · rintro ⟨htexts, hreads⟩
      cases segments with
      | nil => contradiction
      | cons s others =>
        obtain ⟨htext, hothers⟩ := List.cons_eq_cons.1 htexts
        obtain ⟨hread, hreads⟩ := List.forall_mem_cons.1 hreads
        exact ⟨s, others, (segmentOfToken_eq_ok_iff hfirst).2 ⟨htext, hread⟩,
          (ih hrest).2 ⟨hothers, hreads⟩, rfl⟩

/-- The text of a path is its steps with dots between them. -/
theorem toList_text (p : Path) :
    p.text.toList = ['.'].intercalate (p.segments.map fun s => s.text.toList) := by
  rw [text, String.toList_intercalate, List.map_map]
  rfl

/-- A path is read off the tokens of a text; the empty text has an empty token. -/
theorem parse_eq_ok_iff_tokens {text : String} {p : Path} :
    parse text = .ok p ↔ segmentsOfTokens 0 (tokens text.toList) = .ok p.segments := by
  unfold parse
  split
  · rename_i hempty
    have htext : text = "" := by simpa using hempty
    have htokens : segmentsOfTokens 0 (tokens text.toList) = .error (.emptySegment 0) := by
      rw [htext]
      rfl
    simp [htokens]
  · cases hread : segmentsOfTokens 0 (tokens text.toList) with
    | error e => simp [bind, Except.bind]
    | ok segments =>
      simp only [bind, Except.bind, Except.ok.injEq, ofSegments?]
      by_cases hnil : segments = []
      · simp [hnil, Ne.symm p.nonempty, throw, throwThe, MonadExceptOf.throw]
      · simp only [dif_neg hnil, pure, Except.pure, Except.ok.injEq]
        constructor
        · rintro rfl
          rfl
        · rintro rfl
          rfl

/-- A path is what a text is read as when the text is the path's own and every step
is readable. -/
theorem parse_eq_ok_iff {text : String} {p : Path} :
    parse text = .ok p ↔ p.text = text ∧ ∀ s ∈ p.segments, s.Readable := by
  have hdot : ∀ token ∈ tokens text.toList, '.' ∉ token := fun _ => dot_notMem_of_mem_tokens
  rw [parse_eq_ok_iff_tokens, segmentsOfTokens_eq_ok_iff hdot, tokens_eq_splitOn]
  constructor
  · rintro ⟨htokens, hreads⟩
    have htext : p.text.toList = text.toList := by
      rw [toList_text, htokens, List.intercalate_splitOn]
    exact ⟨String.toList_inj.1 htext, hreads⟩
  · rintro ⟨rfl, hreads⟩
    refine ⟨?_, hreads⟩
    have hne : p.segments.map (fun s => s.text.toList) ≠ [] := by simpa using p.nonempty
    rw [toList_text, List.splitOn_intercalate '.' _ hne]
    intro token htoken
    obtain ⟨s, hs, rfl⟩ := List.mem_map.1 htoken
    exact (hreads s hs).dot_notMem_text

/-- A path text and its path determine each other.  Every text that is read is the
text of what it is read as, and a path whose positions are in range is read back
from its text exactly when each of its keys spells a key. -/
theorem text_of_parse_and_parse_text_iff :
    (∀ (text : String) (p : Path), parse text = .ok p → p.text = text) ∧
      ∀ p : Path, (∀ i, .index i ∈ p.segments → i < indexLimit) →
        (parse p.text = .ok p ↔ ∀ key, .name key ∈ p.segments → Spells key) := by
  refine ⟨fun text p h => (parse_eq_ok_iff.1 h).1, ?_⟩
  intro p hindex
  rw [parse_eq_ok_iff]
  constructor
  · rintro ⟨-, hreads⟩ key hkey
    exact hreads _ hkey
  · intro hspells
    refine ⟨rfl, ?_⟩
    intro s hs
    cases s with
    | name key => exact hspells key hs
    | index i => exact hindex i hs

/-- The first number that is no position is a key, and is read back as one. -/
theorem parse_text_two_pow_64 :
    parse "steps.0.18446744073709551616" =
        .ok ⟨[.name "steps", .index 0, .name "18446744073709551616"], by simp⟩ ∧
      (⟨[.name "steps", .index 0, .name "18446744073709551616"], by simp⟩ : Path).text =
        "steps.0.18446744073709551616" := by
  have hindex : ∀ i, .index i ∈ [name "steps", index 0, name "18446744073709551616"] →
      i < indexLimit := by
    intro i hi
    have hzero : i = 0 := by simpa using hi
    rw [hzero]
    decide
  have hspells : ∀ key, .name key ∈ [name "steps", index 0, name "18446744073709551616"] →
      Spells key := by
    intro key hkey
    have hkeys : key = "steps" ∨ key = "18446744073709551616" := by simpa using hkey
    rcases hkeys with rfl | rfl
    · have hletter : ¬ ∀ c ∈ "steps".toList, c.isDigit = true :=
        fun hdigits => absurd (hdigits 's' (by decide)) (by decide)
      exact ⟨by decide, by decide, fun hdigits => absurd hdigits hletter⟩
    · exact ⟨by decide, by decide, fun _ => by decide +kernel⟩
  have hparse := (text_of_parse_and_parse_text_iff.2 ⟨_, by simp⟩ hindex).2 hspells
  exact ⟨hparse, text_of_parse_and_parse_text_iff.1 _ _ hparse⟩

end Path

end FlowTree
