import HAS.Bytes
import HAS.Typestate
import Mathlib.Data.Rat.Defs

/-! The calls into Mecab, NJD, JPCommon and HTS_Engine by which a text becomes speech,
with the arguments that decide what they do. (Initialise is spelt with an s: the
spelling of the source is a word of Lean.) -/
namespace HAS.OpenJTalk
open HAS.Bytes HAS.Typestate

/-- A file name in a buffer, copied or printed with a number. -/
inductive FileName where
  | strcpy (name : List Byte)
  | sprintf (format : List Byte) (n : Nat)
deriving DecidableEq

inductive Call where
  | Mecab_initialise
  | NJD_initialise
  | JPCommon_initialise
  | HTS_Engine_initialise (nstream : Nat)
  | HTS_Engine_set_sampling_rate (i : Int)
  | HTS_Engine_set_fperiod (i : Int)
  | HTS_Engine_set_alpha (f : Rat)
  | HTS_Engine_set_gamma (i : Int)
  | HTS_Engine_set_log_gain (b : Bool)
  | HTS_Engine_set_beta (f : Rat)
  | HTS_Engine_set_audio_buff_size (i : Int)
  | HTS_Engine_set_msd_threshold (stream_index : Nat) (f : Rat)
  | HTS_Engine_set_gv_weight (stream_index : Nat) (f : Rat)
  | Mecab_load (dicdir : FileName)
  | HTS_Engine_load_duration_from_fn (pdf_fn tree_fn : FileName)
  | HTS_Engine_load_parameter_from_fn (pdf_fn tree_fn : FileName) (win_fn : List FileName)
      (stream_index : Nat) (msd_flag : Bool)
  | HTS_Engine_get_nstream
  | HTS_Engine_load_gv_from_fn (pdf_fn : FileName) (tree_fn : Option FileName)
      (stream_index : Nat)
  | HTS_Engine_load_gv_switch_from_fn (fn : FileName)
  | text2mecab (txt : List Byte)
  | Mecab_analysis
  | mecab2njd
  | njd_set_pronunciation
  | njd_set_digit
  | njd_set_accent_phrase
  | njd_set_accent_type
  | njd_set_unvoiced_vowel
  | njd_set_long_vowel
  | njd2jpcommon
  | JPCommon_make_label
  | JPCommon_get_label_size
  | HTS_Engine_load_label_from_string_list
  | HTS_Engine_create_sstream
  | HTS_Engine_create_pstream
  | HTS_Engine_create_gstream
  | HTS_Engine_save_riff
  | HTS_Engine_refresh
  | JPCommon_refresh
  | NJD_refresh
  | Mecab_refresh
  | Mecab_clear
  | NJD_clear
  | JPCommon_clear
  | HTS_Engine_clear
deriving DecidableEq

inductive Component where
  | mecab | njd | jpcommon | engine
deriving DecidableEq

/-- What a call does to a component. -/
def Call.op : Component → Call → Option Op
  | .mecab, Mecab_initialise => some .initialise
  | .mecab, Mecab_load _ | .mecab, Mecab_analysis | .mecab, mecab2njd
  | .mecab, Mecab_refresh => some .use
  | .mecab, Mecab_clear => some .clear
  | .njd, NJD_initialise => some .initialise
  | .njd, mecab2njd | .njd, njd_set_pronunciation | .njd, njd_set_digit
  | .njd, njd_set_accent_phrase | .njd, njd_set_accent_type | .njd, njd_set_unvoiced_vowel
  | .njd, njd_set_long_vowel | .njd, njd2jpcommon | .njd, NJD_refresh => some .use
  | .njd, NJD_clear => some .clear
  | .jpcommon, JPCommon_initialise => some .initialise
  | .jpcommon, njd2jpcommon | .jpcommon, JPCommon_make_label
  | .jpcommon, JPCommon_get_label_size | .jpcommon, HTS_Engine_load_label_from_string_list
  | .jpcommon, JPCommon_refresh => some .use
  | .jpcommon, JPCommon_clear => some .clear
  | .engine, HTS_Engine_initialise _ => some .initialise
  | .engine, HTS_Engine_set_sampling_rate _ | .engine, HTS_Engine_set_fperiod _
  | .engine, HTS_Engine_set_alpha _ | .engine, HTS_Engine_set_gamma _
  | .engine, HTS_Engine_set_log_gain _ | .engine, HTS_Engine_set_beta _
  | .engine, HTS_Engine_set_audio_buff_size _ | .engine, HTS_Engine_set_msd_threshold _ _
  | .engine, HTS_Engine_set_gv_weight _ _ | .engine, HTS_Engine_load_duration_from_fn _ _
  | .engine, HTS_Engine_load_parameter_from_fn _ _ _ _ _ | .engine, HTS_Engine_get_nstream
  | .engine, HTS_Engine_load_gv_from_fn _ _ _ | .engine, HTS_Engine_load_gv_switch_from_fn _
  | .engine, HTS_Engine_load_label_from_string_list | .engine, HTS_Engine_create_sstream
  | .engine, HTS_Engine_create_pstream | .engine, HTS_Engine_create_gstream
  | .engine, HTS_Engine_save_riff | .engine, HTS_Engine_refresh => some .use
  | .engine, HTS_Engine_clear => some .clear
  | _, _ => none

end HAS.OpenJTalk
