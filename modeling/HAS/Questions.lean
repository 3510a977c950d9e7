import HAS.Bytes
import HAS.Glob
import HAS.IRemocon

/-! The questions of the decision trees of a voice (HTS_model.c): patterns for labels. A
pointer into a string is what is left of it, and none once it is behind the terminator;
to read there, or to write behind a buffer, is undefined, and that is none. -/
namespace HAS.HTSEngine
open HAS.Bytes HAS.Glob

def HTS_MAXBUFLEN : Nat := 1024

abbrev STAR : Byte := 42
abbrev QUESTION : Byte := 63

/-- string + 1 -/
def behind : List Byte → Option (List Byte)
  | [] => none
  | _ :: string => some string

def HTS_dp_match (string : Option (List Byte)) (pattern : List Byte) (pos max : Int) :
    Option Bool :=
  if pos > max then some false
  else
    match string, pattern with
    | none, _ => none
    | some string, [] => some (decide (string = []))
    | some string, c :: rest =>
      if c = STAR then
        (HTS_dp_match (behind string) (c :: rest) (pos + 1) max).bind fun found =>
          if found then some true else HTS_dp_match (some string) rest pos max
      else if string.head? = some c ∨ c = QUESTION then
        HTS_dp_match (behind string) rest (pos + 1) (max + 1)
      else some false
termination_by (pattern.length, string.elim 0 (·.length + 1))
decreasing_by
  · cases string <;> simp [behind, Prod.lex_def]
  · simp [Prod.lex_def]
  · simp [Prod.lex_def]

def strstr (string buff : List Byte) : Bool := string.tails.any fun t => buff.isPrefixOf t

def HTS_pattern_match (string pattern : List Byte) : Option Bool :=
  let max := pattern.countP (· ≠ STAR)
  if pattern.count STAR = 2 ∧ pattern.count QUESTION = 0 ∧ pattern.head? = some STAR ∧
      pattern.getLast? = some STAR then
    -- only string matching is required
    let buff := (pattern.drop 1).take (pattern.length - 2)
    if buff.length < HTS_MAXBUFLEN then some (strstr string buff) else none
  else HTS_dp_match (some string) pattern 0 (string.length - max)

structure HTS_Question where
  string : List Byte
  head : List (List Byte)
deriving DecidableEq

/-- The first pattern that matches. -/
def HTS_Question.anyMatch (string : List Byte) : List (List Byte) → Option Bool
  | [] => some false
  | pattern :: rest =>
    (HTS_pattern_match string pattern).bind fun found =>
      if found then some true else anyMatch string rest

def HTS_Question_match (question : HTS_Question) (string : List Byte) : Option Bool :=
  HTS_Question.anyMatch string question.head

/-- What the characters of a pattern stand for. -/
def pieces (pattern : List Byte) : List (Piece Byte) :=
  pattern.map fun c => if c = STAR then .star else if c = QUESTION then .any else .letter c

theorem pieces_star (rest : List Byte) : pieces (STAR :: rest) = .star :: pieces rest := rfl

theorem pieces_cons {c : Byte} (hc : c ≠ STAR) (rest : List Byte) :
    ∃ piece, piece ≠ .star ∧ pieces (c :: rest) = piece :: pieces rest ∧
      ∀ a, piece.admits a ↔ a = c ∨ c = QUESTION := by
  by_cases hq : c = QUESTION
  · exact ⟨.any, by simp, by rw [pieces, List.map_cons, if_neg hc, if_pos hq]; rfl, fun a => by simp [Piece.admits, hq]⟩
  · exact ⟨.letter c, by simp, by simp [pieces, hc, hq], fun a => by simp [Piece.admits, hq]⟩

theorem dp_match_none {pos max : Int} (h : max < pos) (string : Option (List Byte))
    (pattern : List Byte) : HTS_dp_match string pattern pos max = some false := by
  rw [HTS_dp_match.eq_def, if_pos h]

/-- A star: the rest of the pattern may match already, or the star takes one more letter. -/
theorem dp_match_star {string rest : List Byte} {pos max : Int} (h : ¬ max < pos) :
    HTS_dp_match (some string) (STAR :: rest) pos max =
      (HTS_dp_match (behind string) (STAR :: rest) (pos + 1) max).bind fun found =>
        if found then some true else HTS_dp_match (some string) rest pos max := by
  rw [HTS_dp_match, if_neg h]
  exact if_pos rfl

theorem dp_match_cons {a c : Byte} {string rest : List Byte} {pos max : Int} (h : ¬ max < pos)
    (hc : c ≠ STAR) : HTS_dp_match (some (a :: string)) (c :: rest) pos max =
      if a = c ∨ c = QUESTION then HTS_dp_match (some string) rest (pos + 1) (max + 1)
      else some false := by
  rw [HTS_dp_match, if_neg h]
  simp [hc, behind]

/-- The distance of pos to max says how many letters the stars can still take. Where it is
negative no word matches, and the terminator is reached only then. -/
theorem dp_match_spec (string pattern : List Byte) {pos max : Int}
    (hmax : max - pos = string.length - solid (pieces pattern)) :
    ∃ found, HTS_dp_match (some string) pattern pos max = some found ∧
      (found = true ↔ string ∈ lang (pieces pattern)) := by
  induction pattern generalizing string pos max with
  | nil =>
    refine ⟨decide (string = []), ?_, by simp [pieces, mem_nil]⟩
    rw [HTS_dp_match, if_neg]
    simp only [pieces, List.map_nil, solid] at hmax
    omega
  | cons c rest ih =>
    by_cases hpos : max < pos
    · refine ⟨false, dp_match_none hpos _ _, ?_⟩
      simp only [Bool.false_eq_true, false_iff]
      intro hmem
      have := solid_le hmem
      omega
    by_cases hc : c = STAR
    · subst hc
      induction string generalizing pos max with
      | nil =>
        obtain ⟨found, heq, hfound⟩ := ih [] hmax
        refine ⟨found, ?_, by rw [hfound, pieces_star, mem_star_nil]⟩
        rw [dp_match_star hpos, behind, dp_match_none]
        · exact heq
        · simp only [List.length_nil] at hmax
          omega
      | cons a string ihs =>
        obtain ⟨found, heq, hfound⟩ := ih (a :: string) hmax
        have htake : ∃ taken, HTS_dp_match (some string) (STAR :: rest) (pos + 1) max = some taken ∧
            (taken = true ↔ string ∈ lang (pieces (STAR :: rest))) := by
          by_cases hnext : max < pos + 1
          · refine ⟨false, dp_match_none hnext _ _, ?_⟩
            simp only [Bool.false_eq_true, false_iff]
            intro hmem
            have := solid_le hmem
            rw [List.length_cons] at hmax
            omega
          · refine ihs hnext (by rw [List.length_cons] at hmax; omega)
        obtain ⟨taken, htaken, hiff⟩ := htake
        rw [pieces_star] at hiff
        rw [dp_match_star hpos, behind, htaken, pieces_star, mem_star_cons, ← hiff, ← hfound, heq]
        exact ⟨taken || found, by cases taken <;> rfl, by simp⟩
    · obtain ⟨piece, hpiece, hpieces, hadmits⟩ := pieces_cons hc rest
      rw [hpieces, solid_cons hpiece] at hmax
      cases string with
      | nil =>
        rw [List.length_nil] at hmax
        omega
      | cons a string =>
        rw [dp_match_cons hpos hc, hpieces, mem_cons hpiece]
        by_cases ha : a = c ∨ c = QUESTION
        · rw [List.length_cons] at hmax
          have hnext : max + 1 - (pos + 1) = string.length - solid (pieces rest) := by omega
          obtain ⟨found, heq, hfound⟩ := ih string hnext
          refine ⟨found, by rw [if_pos ha, heq], hfound.trans ?_⟩
          constructor
          · exact fun hmem => ⟨a, string, rfl, (hadmits a).mpr ha, hmem⟩
          · intro ⟨_, _, hw, _, hmem⟩
            obtain ⟨-, rfl⟩ := List.cons.inj hw
            exact hmem
        · refine ⟨false, if_neg ha, ?_⟩
          simp only [Bool.false_eq_true, false_iff]
          intro ⟨_, _, hw, hadmit, _⟩
          obtain ⟨rfl, -⟩ := List.cons.inj hw
          exact ha ((hadmits _).mp hadmit)

theorem countP_solid (pattern : List Byte) :
    pattern.countP (· ≠ STAR) = solid (pieces pattern) := by
  induction pattern with
  | nil => rfl
  | cons c rest ih =>
    by_cases hc : c = STAR
    · rw [hc, List.countP_cons_of_neg (by simp), ih, pieces_star, solid]
    · obtain ⟨piece, hpiece, hpieces, -⟩ := pieces_cons hc rest
      rw [List.countP_cons_of_pos (by simpa using hc), ih, hpieces, solid_cons hpiece]

theorem slack (string pattern : List Byte) :
    (string.length : Int) - pattern.countP (· ≠ STAR) - 0 =
      string.length - solid (pieces pattern) := by
  rw [countP_solid, Int.sub_zero]

theorem pieces_letters {letters : List Byte} (hstar : STAR ∉ letters) (hany : QUESTION ∉ letters) :
    pieces (letters ++ [STAR]) = letters.map .letter ++ [.star] := by
  rw [pieces, List.map_append]
  congr 1
  refine List.map_congr_left fun c hc => ?_
  have hc₁ : c ≠ STAR := fun h => hstar (h ▸ hc)
  have hc₂ : c ≠ QUESTION := fun h => hany (h ▸ hc)
  simp [hc₁, hc₂]

/-- Two stars and no question mark, the stars at both ends. -/
theorem between_stars {pattern : List Byte} (hcount : pattern.count STAR = 2)
    (hany : pattern.count QUESTION = 0) (hhead : pattern.head? = some STAR)
    (hlast : pattern.getLast? = some STAR) :
    ∃ letters, pattern = STAR :: (letters ++ [STAR]) ∧ STAR ∉ letters ∧ QUESTION ∉ letters := by
  obtain ⟨front, rfl⟩ := List.getLast?_eq_some_iff.mp hlast
  cases front with
  | nil => simp at hcount
  | cons c letters =>
    obtain rfl : c = STAR := by simpa using hhead
    rw [List.cons_append, List.count_cons_self, List.count_append, List.count_singleton_self]
      at hcount
    refine ⟨letters, rfl, List.count_eq_zero.mp (by omega), fun hmem => ?_⟩
    exact List.count_eq_zero.mp hany (by simp [hmem])

theorem strstr_iff (string buff : List Byte) : strstr string buff = true ↔ buff <:+: string :=
  IRemocon.any_tails_isPrefixOf buff string

theorem pattern_match_spec (string : List Byte) {pattern : List Byte}
    (hsize : pattern.length < HTS_MAXBUFLEN + 2) :
    ∃ found, HTS_pattern_match string pattern = some found ∧
      (found = true ↔ string ∈ lang (pieces pattern)) := by
  rw [HTS_pattern_match]
  split
  next h =>
    obtain ⟨letters, rfl, hstar, hany⟩ := between_stars h.1 h.2.1 h.2.2.1 h.2.2.2
    have hbuff : ((STAR :: (letters ++ [STAR])).drop 1).take
        ((STAR :: (letters ++ [STAR])).length - 2) = letters := by simp
    rw [hbuff, if_pos (by simp at hsize; omega), pieces_star, pieces_letters hstar hany, mem_infix]
    exact ⟨_, rfl, strstr_iff string letters⟩
  next => exact dp_match_spec string pattern (slack string pattern)

/-- The search for a string between two stars agrees with the recursive matching, and both match
what the pattern means. -/
theorem pattern_match_paths (string : List Byte) {pattern : List Byte}
    (hsize : pattern.length < HTS_MAXBUFLEN + 2) :
    ∃ found, HTS_pattern_match string pattern = some found ∧
      HTS_dp_match (some string) pattern 0 (string.length - pattern.countP (· ≠ STAR)) =
        some found ∧ (found = true ↔ string ∈ lang (pieces pattern)) := by
  obtain ⟨found, heq, hfound⟩ := pattern_match_spec string hsize
  obtain ⟨matched, hdp, hmatched⟩ := dp_match_spec string pattern (slack string pattern)
  obtain rfl : matched = found := Bool.eq_iff_iff.mpr (hmatched.trans hfound.symm)
  exact ⟨matched, heq, hdp, hfound⟩

theorem pattern_match_paths_sample :
    ∃ found, HTS_pattern_match (ascii "xx^sil-k+o=N") (ascii "*-k+*") = some found ∧
      HTS_dp_match (some (ascii "xx^sil-k+o=N")) (ascii "*-k+*") 0
        ((ascii "xx^sil-k+o=N").length - (ascii "*-k+*").countP (· ≠ STAR)) = some found ∧
      (found = true ↔ ascii "xx^sil-k+o=N" ∈ lang (pieces (ascii "*-k+*"))) :=
  pattern_match_paths _ (by decide)

/-- What a question asks of a label. -/
def HTS_Question.Asks (question : HTS_Question) (string : List Byte) : Prop :=
  ∃ pattern ∈ question.head, string ∈ lang (pieces pattern)

theorem anyMatch_spec (string : List Byte) {patterns : List (List Byte)}
    (hsize : ∀ pattern ∈ patterns, pattern.length < HTS_MAXBUFLEN + 2) :
    ∃ found, HTS_Question.anyMatch string patterns = some found ∧
      (found = true ↔ ∃ pattern ∈ patterns, string ∈ lang (pieces pattern)) := by
  induction patterns with
  | nil => exact ⟨false, rfl, by simp⟩
  | cons pattern patterns ih =>
    obtain ⟨found, heq, hfound⟩ := pattern_match_spec string (hsize _ List.mem_cons_self)
    obtain ⟨later, hlater, hiff⟩ := ih fun p hp => hsize p (List.mem_cons_of_mem _ hp)
    rw [HTS_Question.anyMatch, heq]
    exact ⟨found || later, by cases found <;> simp [hlater], by simp [hfound, hiff]⟩

theorem question_match_spec (question : HTS_Question) (string : List Byte)
    (hsize : ∀ pattern ∈ question.head, pattern.length < HTS_MAXBUFLEN + 2) :
    ∃ found, HTS_Question_match question string = some found ∧
      (found = true ↔ question.Asks string) :=
  anyMatch_spec string hsize
end HAS.HTSEngine
