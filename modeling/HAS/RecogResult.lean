import HAS.OnResult
import HAS.Run
import Mathlib.Logic.Function.Basic

/-! The result of each recognition process over the input segments, from allocation
to clearing (recogmain.c, search_bestfirst_main.c), and what JuliusJS::on_result
reads of it. The acoustic search is open: each segment says what it finds. The room
allocated for sentences is not bounded here. -/
namespace HAS.RecogResult
open HAS.OnResult HAS.Run

abbrev J_RESULT_STATUS_SUCCESS : Int := 0
abbrev J_RESULT_STATUS_FAIL : Int := -1

/-- The reasons for which result_error is called. -/
inductive Rejection where
  | FAIL | REJECT_SHORT | REJECT_GMM | TERMINATE | REJECT_POWER | BUFFER_OVERFLOW
deriving DecidableEq

def Rejection.code : Rejection → Int
  | FAIL => -1
  | REJECT_SHORT => -2
  | REJECT_GMM => -3
  | TERMINATE => -5
  | REJECT_POWER => -6
  | BUFFER_OVERFLOW => -7

inductive LmType where
  | LM_PROB | LM_DFA
deriving DecidableEq

inductive LmVar where
  | LM_NGRAM | LM_DFA_GRAMMAR | LM_DFA_WORD | LM_NGRAM_USER
deriving DecidableEq

/-- A stored sentence. The segment it was stored in is recorded for the proofs only. -/
structure Sentence where
  word : List WORD_ID
  segment : Nat

abbrev Cells := Nat → Option Sentence

/-- The pointer result.sent and the cells behind it, with none for a cell that was
never written. -/
inductive Sent where
  | null
  | freed
  | cells (sent : Cells)

structure Output where
  status : Int
  sent : Sent
  sentnum : Nat

structure JCONF_SEARCH where
  id : Nat
  compute_only_1pass : Bool
  fallback_pass1_flag : Bool
  multigramout_flag : Bool
  output_hypo_maxnum : Nat

structure PROCESS_LM where
  lmtype : LmType
  lmvar : LmVar
  winfo : WORD_INFO

structure RecogProcess where
  config : JCONF_SEARCH
  lm : PROCESS_LM
  live : Bool
  result : Output

/-- j_recogprocess_new clears the whole instance. -/
def j_recogprocess_new (config : JCONF_SEARCH) (lm : PROCESS_LM) : RecogProcess :=
  ⟨config, lm, false, ⟨0, .null, 0⟩⟩

structure MULTIGRAM where
  id : Nat
  active : Bool

/-- How the first pass over a segment goes on. -/
inductive Ending where
  /-- result_error; it calls back only if there was some input. -/
  | error (reason : Rejection) (hadInput : Bool)
  /-- goto end_recog, or return, without any result. -/
  | cancelled
  | completed

/-- What the outside contributes to one turn of the recognition loop, for each
process by the id of its configuration. -/
structure Segment where
  /-- Values of r->active, for each time the live flags are updated. -/
  active : List (Nat → Int)
  /-- Status set by the first pass, if it sets one. -/
  pass1_status : Nat → Option Int
  pass1_wseq : Nat → List WORD_ID
  /-- Single words that isolated word recognition finds. -/
  pass1_words : Nat → List WORD_ID
  ending : Ending
  grammars : Nat → List MULTIGRAM
  /-- Candidates on the result stack, last word first, in all grammars or limited to
  one; none if not a single one was found. -/
  found : Nat → Option Nat → Option (List (List WORD_ID))

def RecogProcess.setStatus (status : Int) (r : RecogProcess) : RecogProcess :=
  { r with result := { r.result with status := status } }

def updateStatus (active : Nat → Int) (r : RecogProcess) : RecogProcess :=
  { r with live := if active r.config.id > 0 then true
                   else if active r.config.id < 0 then false else r.live }

/-- The part of a result that a search writes to, while its storage is allocated. -/
structure Allocated where
  status : Int
  cells : Cells
  sentnum : Nat

def result_sentence_malloc (status : Int) : Allocated := ⟨status, fun _ => none, 0⟩

def store_result_pass2 (segment : Nat) (hypo : List WORD_ID) (out : Allocated) : Allocated :=
  { out with cells := Function.update out.cells out.sentnum (some ⟨hypo.reverse, segment⟩),
             sentnum := out.sentnum + 1 }

def pass2_finalize_on_no_result (k : Nat) (seg : Segment) (r : RecogProcess)
    (use_1pass_as_final : Bool) (out : Allocated) : Allocated :=
  let now := (seg.pass1_wseq r.config.id).reverse
  if use_1pass_as_final then
    { store_result_pass2 k now out with status := J_RESULT_STATUS_SUCCESS }
  else { out with status := J_RESULT_STATUS_FAIL }

def result_reorder_and_output (k : Nat) (hypos : List (List WORD_ID)) (ncan : Nat)
    (out : Allocated) : Allocated :=
  (hypos.take ncan).foldl (fun out now => store_result_pass2 k now out) out

def wchmm_fbs (k : Nat) (seg : Segment) (r : RecogProcess) (gram : Option Nat)
    (out : Allocated) : Allocated :=
  match seg.found r.config.id gram with
  | none => pass2_finalize_on_no_result k seg r r.config.fallback_pass1_flag out
  | some hypos =>
    { result_reorder_and_output k hypos r.config.output_hypo_maxnum out with
      status := J_RESULT_STATUS_SUCCESS }

/-- One turn of the loop over r->lm->grammars, with has_success. -/
def multigramTurn (k : Nat) (seg : Segment) (r : RecogProcess) (s : Allocated × Bool)
    (m : MULTIGRAM) : Allocated × Bool :=
  if m.active then
    let out := wchmm_fbs k seg r (some m.id) s.1
    (out, s.2 || out.status == J_RESULT_STATUS_SUCCESS)
  else s

def search (k : Nat) (seg : Segment) (r : RecogProcess) (out : Allocated) : Allocated :=
  if r.lm.lmtype = .LM_DFA ∧ r.config.multigramout_flag then
    let s := (seg.grammars r.config.id).foldl (multigramTurn k seg r) (out, false)
    { s.1 with status := if s.2 then J_RESULT_STATUS_SUCCESS else J_RESULT_STATUS_FAIL }
  else wchmm_fbs k seg r none out

def RecogProcess.setAllocated (out : Allocated) (r : RecogProcess) : RecogProcess :=
  { r with result := ⟨out.status, .cells out.cells, out.sentnum⟩ }

/-- The first pass; isolated word recognition stores its result here already. -/
def firstPass (k : Nat) (seg : Segment) (r : RecogProcess) : RecogProcess :=
  match seg.pass1_status r.config.id with
  | none => r
  | some status =>
    if r.live ∧ r.lm.lmvar = .LM_DFA_WORD ∧ status = J_RESULT_STATUS_SUCCESS then
      r.setAllocated (result_reorder_and_output k ((seg.pass1_words r.config.id).map ([·]))
        (max 1 r.config.output_hypo_maxnum) (result_sentence_malloc status))
    else r.setStatus status

/-- For instances with "-1pass", copy 1st pass result as final. -/
def onePass (k : Nat) (seg : Segment) (r : RecogProcess) : RecogProcess :=
  if !r.live then r
  else if r.result.status < 0 then r
  else if r.lm.lmvar = .LM_DFA_WORD then r
  else if r.config.compute_only_1pass then
    r.setAllocated (pass2_finalize_on_no_result k seg r true
      (result_sentence_malloc r.result.status))
  else r

def secondPass (k : Nat) (seg : Segment) (r : RecogProcess) : RecogProcess :=
  if !r.live then r
  else if r.config.compute_only_1pass then r
  else if r.result.status < 0 then r
  else r.setAllocated (search k seg r (result_sentence_malloc r.result.status))

def result_sentence_free (r : RecogProcess) : RecogProcess :=
  { r with result := { r.result with sent := .null } }

def clear_result (r : RecogProcess) : RecogProcess :=
  if r.lm.lmvar = .LM_DFA_WORD then
    if r.result.status = J_RESULT_STATUS_SUCCESS then
      { r with result := { r.result with sent := .freed } }
    else r
  else result_sentence_free r

/-- A run of CALLBACK_RESULT. -/
structure Callback where
  k : Nat
  segment : Segment
  process_list : List RecogProcess

/-- One turn of the loop of j_recognize_stream_core, the k-th. -/
def recognizeSegment (k : Nat) (seg : Segment) (process_list : List RecogProcess) :
    List RecogProcess × List Callback :=
  let started := process_list.map fun r =>
    firstPass k seg (seg.active.foldl (fun r active => updateStatus active r) r)
  match seg.ending with
  | .cancelled => (started, [])
  | .error reason hadInput =>
    let failed := started.map (RecogProcess.setStatus reason.code)
    (failed, if hadInput then [⟨k, seg, failed⟩] else [])
  | .completed =>
    let searched := started.map fun r => secondPass k seg (onePass k seg r)
    (searched.map fun r => if r.live then clear_result r else r, [⟨k, seg, searched⟩])

/-- j_recognize_stream_core over any number of segments. -/
def engine : Machine (Nat × List RecogProcess) Segment Callback where
  step s seg :=
    let r := recognizeSegment s.1 seg s.2
    ((s.1 + 1, r.1), r.2)

/-- A call Julius.onResult made by on_result: the script, and the segment that stored
the sentence it is made of. -/
structure Call where
  segment : Nat
  script : List HAS.Bytes.CodeUnit
deriving DecidableEq

/-- The loop of on_result over the hypotheses of one process; none where it reads
memory that was not written or is no longer there. The pointer does not change in the
loop, so a break at the null pointer is a break in the first round. -/
def onResultProcess (r : RecogProcess) : Option (List Call) :=
  (List.range r.result.sentnum).foldlM (fun calls n =>
    match r.result.sent with
    | .null => some calls
    | .freed => none
    | .cells sent =>
      (sent n).map fun s => calls ++ [⟨s.segment, script r.lm.winfo s.word⟩]) []

def on_result (process_list : List RecogProcess) : Option (List Call) :=
  process_list.foldlM (fun calls r => (onResultProcess r).map (calls ++ ·)) []

/-- What one search stores in a segment, first word first. -/
def searchResult (seg : Segment) (r : RecogProcess) (gram : Option Nat) : List (List WORD_ID) :=
  match seg.found r.config.id gram with
  | none => if r.config.fallback_pass1_flag then [seg.pass1_wseq r.config.id] else []
  | some hypos => (hypos.take r.config.output_hypo_maxnum).map List.reverse

/-- The hypotheses of a process in a segment, in their order. -/
def hypotheses (seg : Segment) (r : RecogProcess) : List (List WORD_ID) :=
  if r.config.compute_only_1pass then [seg.pass1_wseq r.config.id]
  else if r.lm.lmtype = .LM_DFA ∧ r.config.multigramout_flag then
    ((seg.grammars r.config.id).filter (·.active)).flatMap fun m => searchResult seg r (some m.id)
  else searchResult seg r none

/-- The storage has exactly these hypotheses, all of one segment. -/
def Holds (k : Nat) (hypos : List (List WORD_ID)) (out : Allocated) : Prop :=
  out.sentnum = hypos.length ∧ ∀ n, out.cells n = hypos[n]?.map fun words => ⟨words, k⟩

theorem holds_malloc (k : Nat) (status : Int) : Holds k [] (result_sentence_malloc status) :=
  ⟨rfl, fun _ => rfl⟩

theorem Holds.store {k : Nat} {l : List (List WORD_ID)} {out : Allocated} (h : Holds k l out)
    (hypo : List WORD_ID) : Holds k (l ++ [hypo.reverse]) (store_result_pass2 k hypo out) := by
  obtain ⟨hn, hc⟩ := h
  refine ⟨by simp [store_result_pass2, hn], fun n => ?_⟩
  by_cases he : n = l.length
  · subst he
    simp [store_result_pass2, hn]
  · have hne : n ≠ out.sentnum := by rwa [hn]
    simp only [store_result_pass2, Function.update_of_ne hne, hc]
    rcases Nat.lt_or_gt_of_ne he with hlt | hgt
    · rw [List.getElem?_append_left hlt]
    · rw [List.getElem?_eq_none (by omega), List.getElem?_eq_none (by simp; omega)]

theorem Holds.reorder {k : Nat} (hypos : List (List WORD_ID)) (ncan : Nat)
    {l : List (List WORD_ID)} {out : Allocated} (h : Holds k l out) :
    Holds k (l ++ (hypos.take ncan).map List.reverse)
      (result_reorder_and_output k hypos ncan out) := by
  unfold result_reorder_and_output
  induction hypos.take ncan generalizing l out with
  | nil => simpa using h
  | cons hypo hypos ih =>
    have hs := ih (h.store hypo)
    simpa using hs

theorem Holds.finalize {k : Nat} {l : List (List WORD_ID)} {out : Allocated}
    (h : Holds k l out) (seg : Segment) (r : RecogProcess) (use : Bool) :
    Holds k (l ++ if use then [seg.pass1_wseq r.config.id] else [])
      (pass2_finalize_on_no_result k seg r use out) := by
  cases use with
  | false => simpa [pass2_finalize_on_no_result, Holds] using h
  | true =>
    have hs := h.store (seg.pass1_wseq r.config.id).reverse
    simpa [pass2_finalize_on_no_result, Holds] using hs

theorem Holds.wchmm_fbs {k : Nat} {l : List (List WORD_ID)} {out : Allocated}
    (h : Holds k l out) (seg : Segment) (r : RecogProcess) (gram : Option Nat) :
    Holds k (l ++ searchResult seg r gram) (wchmm_fbs k seg r gram out) := by
  unfold RecogResult.wchmm_fbs searchResult
  cases seg.found r.config.id gram with
  | none => exact h.finalize seg r _
  | some hypos => exact h.reorder hypos r.config.output_hypo_maxnum

/-- A search without success has stored nothing. -/
theorem searchResult_of_fail {k : Nat} {seg : Segment} {r : RecogProcess} {gram : Option Nat}
    {out : Allocated} (h : (wchmm_fbs k seg r gram out).status ≠ J_RESULT_STATUS_SUCCESS) :
    searchResult seg r gram = [] := by
  unfold RecogResult.wchmm_fbs at h
  unfold searchResult
  cases hf : seg.found r.config.id gram with
  | none =>
    rw [hf] at h
    cases hu : r.config.fallback_pass1_flag with
    | false => simp
    | true =>
      rw [hu] at h
      exact absurd rfl h
  | some hypos =>
    rw [hf] at h
    exact absurd rfl h

theorem multigram_holds {k : Nat} (seg : Segment) (r : RecogProcess) (ms : List MULTIGRAM)
    {l : List (List WORD_ID)} {s : Allocated × Bool} (h : Holds k l s.1)
    (hs : s.2 = false → l = []) :
    let res := (ms.filter (·.active)).flatMap fun m => searchResult seg r (some m.id)
    Holds k (l ++ res) (ms.foldl (multigramTurn k seg r) s).1 ∧
      ((ms.foldl (multigramTurn k seg r) s).2 = false → l ++ res = []) := by
  induction ms generalizing l s with
  | nil => simpa using ⟨h, hs⟩
  | cons m ms ih =>
    by_cases hm : m.active = true
    · have hw := h.wchmm_fbs seg r (some m.id)
      have hn : (multigramTurn k seg r s m).2 = false → l ++ searchResult seg r (some m.id) = [] := by
        intro hf
        simp only [multigramTurn, hm, if_true, Bool.or_eq_false_iff, beq_eq_false_iff_ne] at hf
        rw [hs hf.1, searchResult_of_fail hf.2]
        rfl
      have := ih (s := multigramTurn k seg r s m) (by simpa [multigramTurn, hm] using hw) hn
      simpa [hm] using this
    · have := ih (s := s) h hs
      simpa [hm, multigramTurn] using this

/-- The second pass stores the hypotheses of the segment, and none when it fails. -/
theorem search_holds (k : Nat) (seg : Segment) (r : RecogProcess) (status : Int)
    (hr : r.config.compute_only_1pass = false) :
    Holds k (hypotheses seg r) (search k seg r (result_sentence_malloc status)) ∧
      ((search k seg r (result_sentence_malloc status)).status < 0 → hypotheses seg r = []) := by
  have h0 := holds_malloc k status
  have hsucc : ¬ J_RESULT_STATUS_SUCCESS < 0 := by decide
  by_cases hm : r.lm.lmtype = .LM_DFA ∧ r.config.multigramout_flag = true
  · have h := multigram_holds seg r (seg.grammars r.config.id)
      (s := (result_sentence_malloc status, false)) h0 fun _ => rfl
    simp only [List.nil_append] at h
    have hh : hypotheses seg r = ((seg.grammars r.config.id).filter (·.active)).flatMap
        fun m => searchResult seg r (some m.id) := by simp [hypotheses, hr, hm]
    rw [hh]
    refine ⟨by simpa [search, hm, Holds] using h.1, fun hneg => h.2 ?_⟩
    by_contra ht
    simp only [search, hm, and_self, if_true, Bool.not_eq_false _ ▸ ht] at hneg
    exact hsucc hneg
  · have h := h0.wchmm_fbs seg r none
    have hh : hypotheses seg r = searchResult seg r none := by simp [hypotheses, hr, hm]
    rw [List.nil_append] at h
    rw [hh]
    refine ⟨by simpa [search, hm] using h, fun hneg => ?_⟩
    refine @searchResult_of_fail k seg r none (result_sentence_malloc status) fun hs => ?_
    simp only [search, hm, if_false, hs] at hneg
    exact hsucc hneg

theorem onResultProcess_null {r : RecogProcess} (h : r.result.sent = .null) :
    onResultProcess r = some [] := by
  unfold onResultProcess
  rw [h]
  induction List.range r.result.sentnum with
  | nil => rfl
  | cons n ns ih => simpa using ih

/-- The calls that on_result makes for hypotheses stored in segment k. -/
def callsOf (k : Nat) (r : RecogProcess) (hypos : List (List WORD_ID)) : List Call :=
  hypos.map fun words => ⟨k, script r.lm.winfo words⟩

theorem onResultProcess_holds {k : Nat} {hypos : List (List WORD_ID)} {out : Allocated}
    (h : Holds k hypos out) (r : RecogProcess) :
    onResultProcess (r.setAllocated out) = some (callsOf k r hypos) := by
  obtain ⟨hn, hc⟩ := h
  have hloop (n : Nat) (hle : n ≤ hypos.length) :
      (List.range n).foldlM (fun calls n => (out.cells n).map fun s =>
        calls ++ [(⟨s.segment, script r.lm.winfo s.word⟩ : Call)]) [] =
          some (callsOf k r (hypos.take n)) := by
    induction n with
    | zero => rfl
    | succ n ih =>
      have hlt : n < hypos.length := hle
      rw [List.range_succ, List.foldlM_append, ih (by omega), List.take_succ_eq_append_getElem hlt]
      have hcell : out.cells n = some ⟨hypos[n], k⟩ := by rw [hc, List.getElem?_eq_getElem hlt]; rfl
      have hadd : callsOf k r (hypos.take n ++ [hypos[n]]) = callsOf k r (hypos.take n) ++
          [⟨k, script r.lm.winfo hypos[n]⟩] := List.map_append
      simp only [hadd, Option.bind_eq_bind, Option.bind_some, List.foldlM_cons, hcell,
        Option.map_some, List.foldlM_nil, Option.pure_def]
  have hfull := hloop hypos.length le_rfl
  rw [List.take_length] at hfull
  rw [← hfull, ← hn]
  rfl

theorem on_result_of_forall {calls : RecogProcess → List Call} {rs : List RecogProcess}
    (h : ∀ r ∈ rs, onResultProcess r = some (calls r)) : on_result rs = some (rs.flatMap calls) := by
  have hloop (acc : List Call) : rs.foldlM (fun calls r => (onResultProcess r).map (calls ++ ·)) acc =
      some (acc ++ rs.flatMap calls) := by
    induction rs generalizing acc with
    | nil => simp
    | cons r rs ih =>
      have hr := h r (by simp)
      have hrs := ih (fun r' hr' => h r' (List.mem_cons_of_mem r hr')) (acc ++ calls r)
      simpa [hr] using hrs
  simpa [on_result] using hloop []

/-- Between segments: nothing is allocated, and the result is not word recognition. -/
structure Idle (r : RecogProcess) : Prop where
  no_word : r.lm.lmvar ≠ .LM_DFA_WORD
  no_sent : r.result.sent = .null

theorem Idle.updateStatus {r : RecogProcess} (h : Idle r) (active : List (Nat → Int)) :
    Idle (active.foldl (fun r active => updateStatus active r) r) := by
  induction active generalizing r with
  | nil => exact h
  | cons a active ih => exact ih ⟨h.no_word, h.no_sent⟩

theorem Idle.setStatus {r : RecogProcess} (h : Idle r) (status : Int) : Idle (r.setStatus status) :=
  ⟨h.no_word, h.no_sent⟩

theorem Idle.firstPass {r : RecogProcess} (h : Idle r) (k : Nat) (seg : Segment) :
    Idle (firstPass k seg r) := by
  unfold RecogResult.firstPass
  cases seg.pass1_status r.config.id with
  | none => exact h
  | some status => simpa [h.no_word] using h.setStatus status

/-- What a callback after the second pass finds in one process. -/
def reported (c : Callback) (r : RecogProcess) : List Call :=
  if r.live ∧ 0 ≤ r.result.status then callsOf c.k r (hypotheses c.segment r) else []

theorem onResultProcess_searched {r : RecogProcess} (h : Idle r) (k : Nat) (seg : Segment)
    (rs : List RecogProcess) :
    onResultProcess (secondPass k seg (onePass k seg r)) =
      some (reported ⟨k, seg, rs⟩ (secondPass k seg (onePass k seg r))) := by
  by_cases hl : r.live = true
  swap
  · have he : secondPass k seg (onePass k seg r) = r := by simp [onePass, secondPass, hl]
    rw [he, onResultProcess_null h.no_sent]
    simp [reported, hl]
  by_cases hs : r.result.status < 0
  · have he : secondPass k seg (onePass k seg r) = r := by simp [onePass, secondPass, hl, hs]
    rw [he, onResultProcess_null h.no_sent]
    have hn : ¬ 0 ≤ r.result.status := by omega
    simp [reported, hn]
  cases hc : r.config.compute_only_1pass with
  | true =>
    have he : secondPass k seg (onePass k seg r) = r.setAllocated
        (pass2_finalize_on_no_result k seg r true (result_sentence_malloc r.result.status)) := by
      simp [onePass, secondPass, hl, hs, hc, h.no_word, RecogProcess.setAllocated]
    have hh := (holds_malloc k r.result.status).finalize seg r true
    rw [he, onResultProcess_holds hh]
    simp [reported, RecogProcess.setAllocated, hl, hypotheses, hc, callsOf,
      pass2_finalize_on_no_result]
  | false =>
    have he : secondPass k seg (onePass k seg r) =
        r.setAllocated (search k seg r (result_sentence_malloc r.result.status)) := by
      simp [onePass, secondPass, hl, hs, hc, h.no_word]
    obtain ⟨hh, hfail⟩ := search_holds k seg r r.result.status hc
    have hy : hypotheses seg (r.setAllocated (search k seg r
        (result_sentence_malloc r.result.status))) = hypotheses seg r := rfl
    rw [he, onResultProcess_holds hh]
    by_cases hneg : (search k seg r (result_sentence_malloc r.result.status)).status < 0
    · have hn : ¬ 0 ≤ (search k seg r (result_sentence_malloc r.result.status)).status := by omega
      simp [reported, RecogProcess.setAllocated, hfail hneg, hn, callsOf]
    · simp only [reported, hy]
      simp [RecogProcess.setAllocated, hl, not_lt.mp hneg, callsOf]

theorem Idle.cleared {r : RecogProcess} (h : Idle r) (k : Nat) (seg : Segment) :
    let searched := secondPass k seg (onePass k seg r)
    Idle (if searched.live then clear_result searched else searched) := by
  have hlm : (secondPass k seg (onePass k seg r)).lm = r.lm := by
    unfold secondPass onePass RecogProcess.setAllocated
    split_ifs <;> rfl
  dsimp only
  cases hl : r.live with
  | false =>
    have he : secondPass k seg (onePass k seg r) = r := by simp [onePass, secondPass, hl]
    simpa [he, hl] using h
  | true =>
    have hlive : (secondPass k seg (onePass k seg r)).live = true := by
      unfold secondPass onePass RecogProcess.setAllocated
      split_ifs <;> simp_all
    have hw : (secondPass k seg (onePass k seg r)).lm.lmvar ≠ .LM_DFA_WORD := hlm ▸ h.no_word
    rw [if_pos hlive, clear_result, if_neg hw]
    exact ⟨hw, rfl⟩

/-- One turn of the recognition loop: every process is idle again, and what on_result
reads is reported for the segment of the turn. -/
theorem recognizeSegment_idle {k : Nat} {seg : Segment} {rs : List RecogProcess}
    (h : ∀ r ∈ rs, Idle r) :
    (∀ r ∈ (recognizeSegment k seg rs).1, Idle r) ∧
      ∀ c ∈ (recognizeSegment k seg rs).2, c.k = k ∧ c.segment = seg ∧
        on_result c.process_list = some (c.process_list.flatMap (reported c)) := by
  have hstart : ∀ r ∈ rs, Idle (firstPass k seg
      (seg.active.foldl (fun r active => updateStatus active r) r)) := fun r hr =>
    ((h r hr).updateStatus seg.active).firstPass k seg
  unfold recognizeSegment
  cases seg.ending with
  | cancelled => simpa using hstart
  | error reason hadInput =>
    refine ⟨by simpa using fun r hr => (hstart r hr).setStatus reason.code, ?_⟩
    intro c hc
    cases hadInput with
    | false => simp at hc
    | true =>
      obtain rfl : c = ⟨k, seg, _⟩ := by simpa using hc
      refine ⟨rfl, rfl, on_result_of_forall ?_⟩
      simp only [List.mem_map, forall_exists_index, and_imp, forall_apply_eq_imp_iff₂]
      intro r hr
      have hneg : ¬ 0 ≤ reason.code := by cases reason <;> decide
      rw [Function.comp_apply, onResultProcess_null ((hstart r hr).setStatus reason.code).no_sent]
      simp [reported, RecogProcess.setStatus, hneg]
  | completed =>
    refine ⟨by simpa using fun r hr => (hstart r hr).cleared k seg, ?_⟩
    intro c hc
    obtain rfl : c = ⟨k, seg, _⟩ := by simpa using hc
    refine ⟨rfl, rfl, on_result_of_forall ?_⟩
    simp only [List.mem_map, forall_exists_index, and_imp, forall_apply_eq_imp_iff₂]
    intro r hr
    exact onResultProcess_searched (hstart r hr) k seg _

theorem engine_idle {s : Nat × List RecogProcess} (h : ∀ r ∈ s.2, Idle r) (segs : List Segment) :
    ∀ r ∈ (engine.run s segs).2, Idle r := by
  refine Machine.run_invariant (M := engine)
    (I := fun s : Nat × List RecogProcess => ∀ r ∈ s.2, Idle r) ?_ h segs
  intro s seg hs
  exact (recognizeSegment_idle hs).1

theorem engine_count (s : Nat × List RecogProcess) (segs : List Segment) :
    (engine.run s segs).1 = s.1 + segs.length := by
  induction segs generalizing s with
  | nil => rfl
  | cons seg segs ih =>
    rw [Machine.run, ih]
    simp only [engine, List.length_cons]
    omega

/-- At every CALLBACK_RESULT of every run, on_result calls Julius.onResult once for
each hypothesis of the current segment, in the order of processes and hypotheses, and
not at all for a process that failed or is not live. -/
theorem on_result_current (processes : List (JCONF_SEARCH × PROCESS_LM))
    (h : ∀ p ∈ processes, p.2.lmvar ≠ .LM_DFA_WORD) (segs : List Segment) :
    ∀ c ∈ engine.trace (0, processes.map fun p => j_recogprocess_new p.1 p.2) segs,
      segs[c.k]? = some c.segment ∧
      on_result c.process_list = some (c.process_list.flatMap fun r =>
        if r.live ∧ 0 ≤ r.result.status then
          (hypotheses c.segment r).map fun words => ⟨c.k, script r.lm.winfo words⟩
        else []) := by
  intro c hc
  obtain ⟨i, seg, hseg, hmem⟩ := Machine.mem_trace_iff.mp hc
  have hnew : ∀ r ∈ processes.map (fun p => j_recogprocess_new p.1 p.2), Idle r := by
    intro r hr
    obtain ⟨p, hp, rfl⟩ := List.mem_map.mp hr
    exact ⟨h p hp, rfl⟩
  have hidle := engine_idle (s := (0, _)) hnew (segs.take i)
  have hi : i < segs.length := (List.getElem?_eq_some_iff.mp hseg).1
  have hcount := engine_count (0, processes.map fun p => j_recogprocess_new p.1 p.2) (segs.take i)
  obtain ⟨hk, hs, hres⟩ := (recognizeSegment_idle hidle).2 c hmem
  have hki : c.k = i := by
    rw [hk, hcount]
    simp
    omega
  refine ⟨?_, hres⟩
  rw [hki, hs, hseg]

/-- One word heard as a hypothesis of three words. -/
def heard : Segment where
  active := [fun _ => 1]
  pass1_status _ := some J_RESULT_STATUS_SUCCESS
  pass1_wseq _ := [0, 2]
  pass1_words _ := []
  ending := .completed
  grammars _ := []
  found _ _ := some [[2, 1, 0]]

def rejected : Segment := { heard with ending := .error .REJECT_SHORT true }

theorem on_result_current_heard_rejected :
    let processes : List (JCONF_SEARCH × PROCESS_LM) :=
      [(⟨1, false, false, false, 1⟩, ⟨.LM_DFA, .LM_DFA_GRAMMAR, itsDictionary⟩)]
    let start := (0, processes.map fun p => j_recogprocess_new p.1 p.2)
    (engine.trace start [heard, rejected]).length = 2 ∧
      ∀ c ∈ engine.trace start [heard, rejected], [heard, rejected][c.k]? = some c.segment ∧
        on_result c.process_list = some (c.process_list.flatMap fun r =>
          if r.live ∧ 0 ≤ r.result.status then
            (hypotheses c.segment r).map fun words => ⟨c.k, script r.lm.winfo words⟩
          else []) :=
  ⟨rfl, on_result_current _ (by simp) _⟩

end HAS.RecogResult
