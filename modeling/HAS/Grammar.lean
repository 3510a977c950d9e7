import HAS.CategoryPairs
import HAS.Expansions
import HAS.Stdio

/-! The grammars of a recogniser and the one that they are put together to (libsent/src/dfa,
libjulius/src/multi-gram.c, dfa_decode.c). There are no states but those numbered below
state_num, a blank grammar stands for one that is NULL, and what is undefined is none. -/
namespace HAS.Julius
open HAS.Bytes HAS.Stdio HAS.PropertyTree

abbrev MAX_WORD_NUM : Nat := 65535

structure Word where
  wname : List Byte
  woutput : List Byte
  wseq : List Nat
  wton : Nat
deriving DecidableEq

structure DFA_INFO where
  st : List DFA_STATE := []
  term_num : Nat := 0
  cp : Option CPAIR := none
  tw : List (List Nat) := []
  is_sp : List Bool := []
  sp_id : Option Nat := none
deriving DecidableEq

/-- The number that the name of a category is, a WORD_ID. -/
def dfa_symbol_lookup (dinfo : DFA_INFO) (terminalname : List Byte) : Option Nat :=
  if terminalname.all decimalDigit then
    let id := (atoi terminalname % (MAX_WORD_NUM + 1)).toNat
    if dinfo.term_num ≤ id ∨ id = MAX_WORD_NUM then none else some id
  else none

/-- The words of each category, in order. -/
def make_terminfo (term_num : Nat) (winfo : List Word) : List (List Nat) :=
  winfo.zipIdx.foldl (fun tw w => tw.modify w.1.wton (· ++ [w.2])) (List.replicate term_num [])

def make_dfa_voca_ref (dinfo : DFA_INFO) (winfo : List Word) : Option (DFA_INFO × List Word) :=
  (winfo.mapM fun w => (dfa_symbol_lookup dinfo w.wname).map fun t => { w with wton := t }).map
    fun winfo => ({ dinfo with tw := make_terminfo dinfo.term_num winfo }, winfo)

/-- A word that consists only of the pause model. -/
def onlyPauses (sp : Nat) (winfo : List Word) (w : Nat) : Bool :=
  winfo[w]?.all fun word => word.wseq.all (· == sp)

def dfa_find_pause_word (dfa : DFA_INFO) (winfo : List Word) (sp : Nat) : DFA_INFO :=
  { dfa with
    is_sp := dfa.tw.map fun words => words.any (onlyPauses sp winfo)
    sp_id := dfa.tw.findSome? fun words => words.find? (onlyPauses sp winfo) }

def DFA_INFO.pause (dfa : DFA_INFO) (cate : Nat) : Bool := dfa.is_sp[cate]?.getD false

/-- What a new grammar goes through before it is put to the others. -/
def setUp (sp : Nat) (dfa : DFA_INFO) (winfo : List Word) : Option (DFA_INFO × List Word) :=
  (make_dfa_voca_ref dfa winfo).bind fun (dfa, winfo) =>
    let dfa := dfa_find_pause_word dfa winfo sp
    (extract_cpair dfa.st dfa.pause dfa.term_num).map fun cp => ({ dfa with cp := some cp }, winfo)

def DFA_ARC.shift (arc : DFA_ARC) (soffset coffset : Nat) : DFA_ARC :=
  ⟨arc.label + coffset, arc.to_state + soffset⟩

/-- Every arc goes to the front of those of its state. -/
def DFA_STATE.shift (state : DFA_STATE) (s soffset coffset : Nat) : DFA_STATE :=
  { initial := s == 0
    accept := state.accept
    arc := (state.arc.map (·.shift soffset coffset)).reverse }

/-- None where a label is too large for a short. -/
def dfa_append (dst src : DFA_INFO) (soffset coffset : Nat) : Option DFA_INFO :=
  let labels := src.st.flatMap fun state => state.arc.map (·.label + coffset)
  if labels.any (32767 < ·) then none
  else some { dst with
    st := dst.st ++ src.st.mapIdx fun s state => state.shift s soffset coffset
    term_num := labels.foldl (fun n label => max n (label + 1)) dst.term_num }

def voca_append (dst src : List Word) (coffset : Nat) : Option (List Word) :=
  if dst.length + src.length < MAX_WORD_NUM then
    some (dst ++ src.map fun w => { w with wton := w.wton + coffset })
  else none

def terminfo_append (dst src : List (List Nat)) (woffset : Nat) : List (List Nat) :=
  dst ++ src.map fun words => words.map (· + woffset)

def dfa_cp_append (dfa src : DFA_INFO) (offset : Nat) : Option CPAIR :=
  match dfa.cp, src.cp with
  | _, none => none
  | none, some added => if dfa.term_num = src.term_num then some added else none
  | some cp, some added => some
    { cp := cp.cp ++ added.cp.map fun list => list.map (· + offset)
      cp_begin := cp.cp_begin ++ added.cp_begin.map (· + offset)
      cp_end := cp.cp_end ++ added.cp_end.map (· + offset) }

def cpair_append (dst src : DFA_INFO) (coffset : Nat) : Option CPAIR :=
  if dst.term_num - coffset = src.term_num then dfa_cp_append dst src coffset else none

/-- The pause word keeps the number that it had. -/
def dfa_pause_word_append (dst src : DFA_INFO) : DFA_INFO :=
  { dst with is_sp := dst.is_sp ++ src.is_sp, sp_id := dst.sp_id.or src.sp_id }

structure MULTIGRAM where
  id : Nat
  name : List Byte
  dfa : DFA_INFO
  winfo : List Word
  delete : Bool := false
  activate : Bool := true
  deactivate : Bool := false
  modified : Bool := false
  newbie : Bool := true
  active : Bool := false
  state_begin : Nat := 0
  cate_begin : Nat := 0
  word_begin : Nat := 0

/-- The grammars, the last one first, and the one they are put together to. -/
structure PROCESS_LM where
  grammars : List MULTIGRAM := []
  gram_maxid : Nat := 0
  dfa : DFA_INFO := {}
  winfo : List Word := []

/-- None where something cannot be appended. -/
def multigram_append_to_global (gdfa : DFA_INFO) (gwinfo : List Word) (m : MULTIGRAM) :
    Option (DFA_INFO × List Word) :=
  (dfa_append gdfa m.dfa gdfa.st.length gdfa.term_num).bind fun dfa =>
    (voca_append gwinfo m.winfo gdfa.term_num).bind fun winfo =>
      (cpair_append dfa m.dfa gdfa.term_num).map fun cp =>
        (dfa_pause_word_append
          { dfa with tw := terminfo_append gdfa.tw m.dfa.tw gwinfo.length, cp := some cp } m.dfa,
          winfo)

def MULTIGRAM.placed (m : MULTIGRAM) (gdfa : DFA_INFO) (gwinfo : List Word) : MULTIGRAM :=
  { m with
    newbie := false
    state_begin := gdfa.st.length
    cate_begin := gdfa.term_num
    word_begin := gwinfo.length }

/-- The loop that appends the new grammars, or all of them. -/
def appendAll (every : Bool) : DFA_INFO → List Word → List MULTIGRAM →
    Option (DFA_INFO × List Word × List MULTIGRAM)
  | gdfa, gwinfo, [] => some (gdfa, gwinfo, [])
  | gdfa, gwinfo, m :: ms =>
    if every || m.newbie then
      (multigram_append_to_global gdfa gwinfo m).bind fun (dfa, winfo) =>
        (appendAll every dfa winfo ms).map fun (dfa, winfo, ms) =>
          (dfa, winfo, m.placed gdfa gwinfo :: ms)
    else (appendAll every gdfa gwinfo ms).map fun (dfa, winfo, ms) => (dfa, winfo, m :: ms)

def multigram_add (dfa : DFA_INFO) (winfo : List Word) (name : List Byte) (lm : PROCESS_LM) :
    PROCESS_LM :=
  { lm with
    grammars := { id := lm.gram_maxid, name, dfa, winfo } :: lm.grammars
    gram_maxid := lm.gram_maxid + 1 }

/-- The first grammar with a number. -/
def mark (id : Nat) (f : MULTIGRAM → MULTIGRAM) : List MULTIGRAM → List MULTIGRAM
  | [] => []
  | m :: ms => if m.id = id then f m :: ms else m :: mark id f ms

def multigram_delete (delid : Nat) (lm : PROCESS_LM) : PROCESS_LM :=
  { lm with grammars := mark delid ({ · with delete := true }) lm.grammars }

def multigram_delete_all (lm : PROCESS_LM) : PROCESS_LM :=
  { lm with grammars := lm.grammars.map ({ · with delete := true }) }

def multigram_activate (gid : Nat) (lm : PROCESS_LM) : PROCESS_LM :=
  { lm with grammars := mark gid ({ · with deactivate := false, activate := true }) lm.grammars }

def multigram_deactivate (gid : Nat) (lm : PROCESS_LM) : PROCESS_LM :=
  { lm with grammars := mark gid ({ · with activate := false, deactivate := true }) lm.grammars }

/-- A new grammar that cannot be set up is marked to be deleted. -/
def MULTIGRAM.setUp (sp : Nat) (m : MULTIGRAM) : MULTIGRAM :=
  if m.newbie then
    match Julius.setUp sp m.dfa m.winfo with
    | none => { m with delete := true }
    | some (dfa, winfo) => { m with dfa, winfo }
  else m

def MULTIGRAM.exec_activate (m : MULTIGRAM) : MULTIGRAM :=
  if m.activate then { m with activate := false, active := true }
  else if m.deactivate then { m with deactivate := false, active := false }
  else m

/-- None where a grammar cannot be put to the others. -/
def multigram_update (sp : Nat) (lm : PROCESS_LM) : Option PROCESS_LM :=
  let all := lm.grammars.map (·.setUp sp)
  let left := all.filter (!·.delete)
  let rebuild := all.any (fun m => m.delete && !m.newbie) || left.any (·.modified)
  let cleared := left.map ({ · with modified := false })
  (if rebuild then appendAll true {} [] cleared else appendAll false lm.dfa lm.winfo cleared).map
    fun (dfa, winfo, ms) => { lm with dfa, winfo, grammars := ms.map (·.exec_activate) }

/-- None where the words cannot be added; the grammar with the name is the first one. -/
def multigram_add_words_to_grammar (lm : PROCESS_LM) (id : Nat) (winfo : List Word) :
    Option PROCESS_LM :=
  (lm.grammars.find? (·.id = id)).bind fun m =>
    (voca_append m.winfo winfo m.id).bind fun all =>
      (make_dfa_voca_ref m.dfa all).map fun (dfa, all) =>
        { lm with grammars := mark id ({ · with dfa, winfo := all, modified := true }) lm.grammars }

structure NEXTWORD where
  id : Nat
  next_state : Nat
  can_insert_sp : Bool
deriving DecidableEq

/-- All words of the category of an arc. -/
def expand (dfa : DFA_INFO) (can_insert_sp : Bool) (arc : DFA_ARC) : List NEXTWORD :=
  (dfa.tw[arc.label]?.getD []).map fun id => ⟨id, arc.to_state, can_insert_sp⟩

/-- What can come first after the initial ones of so many states. -/
def firstwords (dfa : DFA_INFO) (sb num : Nat) : List NEXTWORD :=
  (List.range' sb num).flatMap fun s =>
    if (dfa.st[s]?.getD {}).initial then (dfa.st[s]?.getD {}).arc.flatMap (expand dfa false) else []

def dfa_firstwords (lm : PROCESS_LM) : List NEXTWORD :=
  (lm.grammars.filter (·.active)).flatMap fun m => firstwords lm.dfa m.state_begin m.dfa.st.length

/-- A pause is passed over: the words behind it come next. -/
def dfa_nextwords (dfa : DFA_INFO) (state : Nat) : List NEXTWORD :=
  (dfa.st[state]?.getD {}).arc.flatMap fun arc =>
    if dfa.pause arc.label then (target dfa.st arc).arc.flatMap (expand dfa true)
    else expand dfa false arc

def dfa_acceptable (dfa : DFA_INFO) (state : Nat) : Bool := (dfa.st[state]?.getD {}).accept

end HAS.Julius
