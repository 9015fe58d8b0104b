import FlowTree.Proofs.Number.Decimal
import FlowTree.Proofs.Path.Text
import Mathlib.Data.List.Forall2

/-!
# FlowTree.Proofs.Path.Grammar

The grammar of path texts, and the fault that is reported of a text outside it.

The grammar speaks of the tokens between dots alone, each by itself: a token is admitted
unless it is empty or a position with a leading zero, and it stands for a position when it is
a decimal that fits in 64 bits, else for a key.  A text is read token by token from the left,
so that of several faults the first one is met:

* `Path.Admitted`, `Path.Denotes` — the tokens of the grammar and what they stand for;
* `Path.FirstFault` — the leftmost token that is not admitted;
* `segmentOfToken_eq_ok_iff_denotes`, `segmentOfToken_of_not_admitted` — one token;
* `segmentsOfTokens_eq_ok_iff_denotes`, `segmentsOfTokens_eq_error_iff` — a row of tokens;
* `parse_grammar` — a text.
-/

namespace FlowTree

namespace Path

open Decimal

/-! ## the grammar -/

/-- A token of several digits, the first of them zero. -/
structure LeadsWithZero (token : List Char) : Prop where
  several : 2 ≤ token.length
  allDigits : AllDigits token
  head_eq : token.head? = some '0'

/-- The tokens that a path text may have. -/
structure Admitted (token : List Char) : Prop where
  nonempty : token ≠ []
  not_leadsWithZero : ¬ LeadsWithZero token

/-- What a token stands for: a position when it is a decimal that fits in 64 bits, and a key
when it is anything else. -/
inductive Denotes : List Char → Segment → Prop where
  | position {token : List Char} (digits : AllDigits token) (fits : value token ≤ 2 ^ 64 - 1) :
    Denotes token (.index (value token))
  | key {token : List Char} (other : ¬ (AllDigits token ∧ value token ≤ 2 ^ 64 - 1)) :
    Denotes token (.name (String.ofList token))

/-- The leftmost token that is not admitted, with its position. -/
structure FirstFault (tokens : List (List Char)) (i : Nat) (token : List Char) : Prop where
  getElem?_eq : tokens[i]? = some token
  not_admitted : ¬ Admitted token
  leftmost : ∀ j < i, ∀ other, tokens[j]? = some other → Admitted other

/-- A fault is the first token, or it is the first fault behind a token that is admitted. -/
theorem firstFault_cons {first token : List Char} {rest : List (List Char)} {i : Nat} :
    FirstFault (first :: rest) i token ↔
      i = 0 ∧ token = first ∧ ¬ Admitted first ∨
        ∃ j, i = j + 1 ∧ Admitted first ∧ FirstFault rest j token := by
  constructor
  · rintro ⟨htoken, hfault, hleft⟩
    cases i with
    | zero =>
        obtain rfl : first = token := by simpa using htoken
        exact .inl ⟨rfl, rfl, hfault⟩
    | succ j =>
        refine .inr ⟨j, rfl, hleft 0 (Nat.succ_pos j) first rfl, ?_⟩
        exact ⟨by simpa using htoken, hfault,
          fun k hk other hother => hleft (k + 1) (Nat.succ_lt_succ hk) other (by simpa using hother)⟩
  · rintro (⟨rfl, rfl, hfault⟩ | ⟨j, rfl, hfirst, h⟩)
    · exact ⟨rfl, hfault, fun k hk => absurd hk (Nat.not_lt_zero k)⟩
    · refine ⟨by simpa using h.getElem?_eq, h.not_admitted, fun k hk other hother => ?_⟩
      cases k with
      | zero =>
          obtain rfl : first = other := by simpa using hother
          exact hfirst
      | succ k => exact h.leftmost k (Nat.lt_of_succ_lt_succ hk) other (by simpa using hother)

/-! ## one token -/

theorem hasLeadingZero_iff {token : List Char} :
    hasLeadingZero token = true ↔ LeadsWithZero token := by
  simp only [hasLeadingZero, Bool.and_eq_true, decide_eq_true_eq, beq_iff_eq, List.all_eq_true]
  constructor
  · rintro ⟨⟨hlength, hhead⟩, hdigits⟩
    exact ⟨hlength, hdigits, hhead⟩
  · rintro ⟨hlength, hdigits, hhead⟩
    exact ⟨⟨hlength, hhead⟩, hdigits⟩

/-- The step of a token is what the token stands for, and nothing else is. -/
theorem denotes_iff {token : List Char} {s : Segment} :
    Denotes token s ↔ Segment.ofToken token = s := by
  have hpos : (token.all Char.isDigit && Nat.ofDigitChars 10 token 0 < Segment.indexLimit) = true ↔
      AllDigits token ∧ value token ≤ 2 ^ 64 - 1 := by
    have hlimit : value token < Segment.indexLimit ↔ value token ≤ 2 ^ 64 - 1 :=
      Nat.lt_iff_le_pred (by decide)
    rw [Bool.and_eq_true, List.all_eq_true, decide_eq_true_eq, ofDigitChars_zero, hlimit]
    rfl
  unfold Segment.ofToken
  constructor
  · rintro (⟨hdigits, hfits⟩ | hother)
    · rw [if_pos (hpos.2 ⟨hdigits, hfits⟩), ofDigitChars_zero]
    · rw [if_neg (mt hpos.1 hother)]
  · rintro rfl
    split
    · rename_i h
      obtain ⟨hdigits, hfits⟩ := hpos.1 h
      rw [ofDigitChars_zero]
      exact .position hdigits hfits
    · rename_i h
      exact .key (mt hpos.2 h)

/-- The fault of a token that is not admitted. -/
def faultOf (position : Nat) (token : List Char) : PathError :=
  if token = [] then .emptySegment position else .leadingZero position (String.ofList token)

theorem faultOf_ne_empty (position : Nat) (token : List Char) :
    faultOf position token ≠ .empty := by
  unfold faultOf
  split <;> simp

theorem faultOf_eq_emptySegment_iff {position i : Nat} {token : List Char} :
    faultOf position token = .emptySegment i ↔ token = [] ∧ position = i := by
  unfold faultOf
  split <;> simp_all

theorem faultOf_eq_leadingZero_iff {position i : Nat} {token : List Char} {text : String} :
    faultOf position token = .leadingZero i text ↔
      text ≠ "" ∧ token = text.toList ∧ position = i := by
  have htext : String.ofList token = text ↔ token = text.toList := by
    rw [← String.toList_inj, String.toList_ofList]
  unfold faultOf
  split
  · rename_i hempty
    constructor
    · intro h
      contradiction
    · rintro ⟨hne, htoken, -⟩
      exact absurd (String.toList_eq_nil_iff.1 (htoken.symm.trans hempty)) hne
  · rename_i hne
    simp only [PathError.leadingZero.injEq, htext]
    constructor
    · rintro ⟨rfl, rfl⟩
      exact ⟨by simpa using hne, rfl, rfl⟩
    · rintro ⟨-, htoken, rfl⟩
      exact ⟨rfl, htoken⟩

theorem segmentOfToken_of_admitted {token : List Char} (h : Admitted token) (position : Nat) :
    segmentOfToken position token = .ok (Segment.ofToken token) := by
  have hzero : ¬ hasLeadingZero token = true := mt hasLeadingZero_iff.1 h.not_leadsWithZero
  simp [segmentOfToken, h.nonempty, hzero]

theorem segmentOfToken_of_not_admitted {token : List Char} (h : ¬ Admitted token)
    (position : Nat) : segmentOfToken position token = .error (faultOf position token) := by
  by_cases hempty : token = []
  · simp [segmentOfToken, faultOf, hempty]
  · cases hzero : hasLeadingZero token with
    | true => simp [segmentOfToken, faultOf, hempty, hzero]
    | false =>
        have hnot : ¬ LeadsWithZero token := by simp [← hasLeadingZero_iff, hzero]
        exact absurd ⟨hempty, hnot⟩ h

theorem forall₂_denotes_iff {tokens : List (List Char)} {segments : List Segment} :
    List.Forall₂ Denotes tokens segments ↔ tokens.map Segment.ofToken = segments := by
  have hdenotes : Denotes = fun token s => Segment.ofToken token = s :=
    funext₂ fun _ _ => propext denotes_iff
  rw [hdenotes, ← List.forall₂_map_left_iff (R := Eq), List.forall₂_eq_eq_eq]

/-! ## rows of tokens -/

/-- Tokens that are all admitted are read as what they stand for. -/
theorem segmentsOfTokens_of_admitted {tokens : List (List Char)}
    (h : ∀ token ∈ tokens, Admitted token) (position : Nat) :
    segmentsOfTokens position tokens = .ok (tokens.map Segment.ofToken) := by
  induction tokens generalizing position with
  | nil => rfl
  | cons token rest ih =>
      obtain ⟨hfirst, hrest⟩ := List.forall_mem_cons.1 h
      rw [segmentsOfTokens, segmentOfToken_of_admitted hfirst, ih hrest]
      rfl

/-- Tokens are refused for the first of them that is not admitted. -/
theorem segmentsOfTokens_of_firstFault {tokens : List (List Char)} {i : Nat} {token : List Char}
    (h : FirstFault tokens i token) (position : Nat) :
    segmentsOfTokens position tokens = .error (faultOf (position + i) token) := by
  induction tokens generalizing i position with
  | nil => simpa using h.getElem?_eq
  | cons first rest ih =>
      obtain ⟨rfl, rfl, hfault⟩ | ⟨j, rfl, hfirst, hrest⟩ := firstFault_cons.1 h
      · rw [segmentsOfTokens, segmentOfToken_of_not_admitted hfault]
        rfl
      · rw [segmentsOfTokens, segmentOfToken_of_admitted hfirst, ih hrest, Nat.add_assoc,
          Nat.add_comm 1]
        rfl

/-- Either all tokens are admitted, or one of them is the first that is not. -/
theorem admitted_or_firstFault (tokens : List (List Char)) :
    (∀ token ∈ tokens, Admitted token) ∨ ∃ i token, FirstFault tokens i token := by
  induction tokens with
  | nil => exact .inl fun _ h => absurd h List.not_mem_nil
  | cons first rest ih =>
      by_cases hfirst : Admitted first
      · obtain hrest | ⟨i, token, h⟩ := ih
        · exact .inl (List.forall_mem_cons.2 ⟨hfirst, hrest⟩)
        · exact .inr ⟨i + 1, token, firstFault_cons.2 (.inr ⟨i, rfl, hfirst, h⟩)⟩
      · exact .inr ⟨0, first, firstFault_cons.2 (.inl ⟨rfl, rfl, hfirst⟩)⟩

theorem segmentsOfTokens_eq_ok_iff_denotes {tokens : List (List Char)} {segments : List Segment} :
    segmentsOfTokens 0 tokens = .ok segments ↔
      (∀ token ∈ tokens, Admitted token) ∧ List.Forall₂ Denotes tokens segments := by
  rw [forall₂_denotes_iff]
  constructor
  · intro hread
    obtain hall | ⟨i, token, h⟩ := admitted_or_firstFault tokens
    · rw [segmentsOfTokens_of_admitted hall] at hread
      exact ⟨hall, Except.ok.inj hread⟩
    · rw [segmentsOfTokens_of_firstFault h] at hread
      contradiction
  · rintro ⟨hall, rfl⟩
    exact segmentsOfTokens_of_admitted hall 0

theorem segmentsOfTokens_eq_error_iff {tokens : List (List Char)} {e : PathError} :
    segmentsOfTokens 0 tokens = .error e ↔
      ∃ i token, FirstFault tokens i token ∧ faultOf i token = e := by
  constructor
  · intro hread
    obtain hall | ⟨i, token, h⟩ := admitted_or_firstFault tokens
    · rw [segmentsOfTokens_of_admitted hall] at hread
      contradiction
    · rw [segmentsOfTokens_of_firstFault h, Nat.zero_add] at hread
      exact ⟨i, token, h, Except.error.inj hread⟩
  · rintro ⟨i, token, h, rfl⟩
    rw [segmentsOfTokens_of_firstFault h, Nat.zero_add]

/-! ## texts -/

/-- A text that is not empty is refused for the first of its tokens that is not admitted. -/
theorem parse_eq_error_iff {text : String} (hne : text ≠ "") {e : PathError} :
    parse text = .error e ↔
      ∃ i token, FirstFault (text.toList.splitOn '.') i token ∧ faultOf i token = e := by
  rw [← segmentsOfTokens_eq_error_iff, ← tokens_eq_splitOn]
  cases hread : segmentsOfTokens 0 (tokens text.toList) with
  | error fault => simp [parse, hne, hread, bind, Except.bind]
  | ok segments =>
      obtain ⟨-, hdenotes⟩ := segmentsOfTokens_eq_ok_iff_denotes.1 hread
      have hsegments : segments ≠ [] := by
        rw [← forall₂_denotes_iff.1 hdenotes, ne_eq, List.map_eq_nil_iff]
        exact tokens_ne_nil text.toList
      have hparse : parse text = .ok ⟨segments, hsegments⟩ := parse_eq_ok_iff_tokens.2 hread
      simp [hparse]

theorem parse_eq_ok_iff_denotes {text : String} {p : Path} :
    parse text = .ok p ↔
      (∀ token ∈ text.toList.splitOn '.', Admitted token) ∧
        List.Forall₂ Denotes (text.toList.splitOn '.') p.segments := by
  rw [parse_eq_ok_iff_tokens, segmentsOfTokens_eq_ok_iff_denotes, tokens_eq_splitOn]

theorem exists_parse_eq_ok_iff {text : String} :
    (∃ p, parse text = .ok p) ↔ ∀ token ∈ text.toList.splitOn '.', Admitted token := by
  constructor
  · rintro ⟨p, hparse⟩
    exact (parse_eq_ok_iff_denotes.1 hparse).1
  · intro hall
    have hne : (text.toList.splitOn '.').map Segment.ofToken ≠ [] := by
      simpa [← tokens_eq_splitOn] using tokens_ne_nil text.toList
    exact ⟨⟨_, hne⟩, parse_eq_ok_iff_denotes.2 ⟨hall, forall₂_denotes_iff.2 rfl⟩⟩

theorem parse_eq_empty_iff {text : String} : parse text = .error .empty ↔ text = "" := by
  constructor
  · intro hparse
    by_contra hne
    obtain ⟨i, token, -, hfault⟩ := (parse_eq_error_iff hne).1 hparse
    exact faultOf_ne_empty i token hfault
  · rintro rfl
    rfl

theorem parse_eq_emptySegment_iff {text : String} {i : Nat} :
    parse text = .error (.emptySegment i) ↔
      text ≠ "" ∧ FirstFault (text.toList.splitOn '.') i [] := by
  constructor
  · intro hparse
    have hne : text ≠ "" := fun h => by simp [parse_eq_empty_iff.2 h] at hparse
    obtain ⟨j, token, h, hfault⟩ := (parse_eq_error_iff hne).1 hparse
    obtain ⟨rfl, rfl⟩ := faultOf_eq_emptySegment_iff.1 hfault
    exact ⟨hne, h⟩
  · rintro ⟨hne, h⟩
    exact (parse_eq_error_iff hne).2 ⟨i, [], h, rfl⟩

theorem parse_eq_leadingZero_iff {text token : String} {i : Nat} :
    parse text = .error (.leadingZero i token) ↔
      token ≠ "" ∧ FirstFault (text.toList.splitOn '.') i token.toList := by
  constructor
  · intro hparse
    have hne : text ≠ "" := fun h => by simp [parse_eq_empty_iff.2 h] at hparse
    obtain ⟨j, chars, h, hfault⟩ := (parse_eq_error_iff hne).1 hparse
    obtain ⟨htoken, rfl, rfl⟩ := faultOf_eq_leadingZero_iff.1 hfault
    exact ⟨htoken, h⟩
  · rintro ⟨htoken, h⟩
    have hne : text ≠ "" := by
      rintro rfl
      -- the only token of the empty text is empty
      have hmem := List.mem_of_getElem? h.getElem?_eq
      simp [htoken] at hmem
    exact (parse_eq_error_iff hne).2
      ⟨i, token.toList, h, faultOf_eq_leadingZero_iff.2 ⟨htoken, rfl, rfl⟩⟩

/-- **The grammar of paths.** A text is refused as empty exactly when it is.  It is read
exactly when all of its tokens are admitted, and then step by step as what the tokens stand
for.  Any other text is refused for the first of its tokens that is not admitted, with the
position of this token: as an empty step when the token is empty, else for its leading zero. -/
theorem parse_grammar (text : String) :
    (parse text = .error .empty ↔ text = "") ∧
    ((∃ p, parse text = .ok p) ↔ ∀ token ∈ text.toList.splitOn '.', Admitted token) ∧
    (∀ p, parse text = .ok p ↔
      (∀ token ∈ text.toList.splitOn '.', Admitted token) ∧
        List.Forall₂ Denotes (text.toList.splitOn '.') p.segments) ∧
    (∀ i, parse text = .error (.emptySegment i) ↔
      text ≠ "" ∧ FirstFault (text.toList.splitOn '.') i []) ∧
    ∀ i token, parse text = .error (.leadingZero i token) ↔
      token ≠ "" ∧ FirstFault (text.toList.splitOn '.') i token.toList :=
  ⟨parse_eq_empty_iff, exists_parse_eq_ok_iff, fun _ => parse_eq_ok_iff_denotes,
    fun _ => parse_eq_emptySegment_iff, fun _ _ => parse_eq_leadingZero_iff⟩

/-- Of two faults the one further left is reported. -/
example : parse "a.007..b" = .error (.leadingZero 1 "007") := by decide +kernel

end Path

end FlowTree
