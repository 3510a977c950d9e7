import HAS.Framing
import HAS.Unicode
import Mathlib.Data.Nat.Digits.Defs

/-! iRemocon::exec_command, ir_send and ir_recieve, called from JavaScript: the bytes
on the connection that each call opens, and what the reply makes the call return. -/
namespace HAS.IRemocon
open HAS.Bytes HAS.Unicode HAS.Framing

abbrev STAR : Byte := 42

/-- Decimal digits as operator<< prints them. -/
def digits (n : Nat) : List Byte :=
  if n = 0 then [48] else (Nat.digits 10 n).reverse.map fun d => Fin.ofNat 256 (48 + d)

def decimal (num : Int) : List Byte :=
  if num < 0 then 45 :: digits num.natAbs else digits num.natAbs

/-- s << boost::format("*%1%\r\n") % cmd -/
def exec_command (cmd : List Byte) : List Byte := ascii "*" ++ cmd ++ ascii "\r\n"

/-- What exec_command returns: false if the first line of the reply is empty, as it is when
none comes in time, or has err in it. -/
def succeeded (reply : List Byte) : Bool :=
  let line := reply.takeWhile (· ≠ LF)
  !line.isEmpty && !line.tails.any fun t => (ascii "err").isPrefixOf t

def ir_send (num : Int) : List Byte := exec_command (ascii "is;" ++ decimal num)

def ir_recieve (num : Int) : List Byte := exec_command (ascii "ic;" ++ decimal num)

/-- A call of one of the methods that JavaScript has. -/
inductive Request where
  | send (ir_num : Int)
  | receive (ir_num : Int)
  | exec_command (command : List CodeUnit)

/-- iRemoconJS::func on a connected object: the bytes of the call's connection. -/
def Request.transmit : Request → List Byte
  | send ir_num => ir_send ir_num
  | receive ir_num => ir_recieve ir_num
  | exec_command command => IRemocon.exec_command (c_str (encode command)).bytes

/-- The command that the caller asks for. -/
def Request.command : Request → List Byte
  | send ir_num => ascii "is;" ++ decimal ir_num
  | receive ir_num => ascii "ic;" ++ decimal ir_num
  | exec_command command => encode command

def digitValue (b : Byte) : Nat := b.val - 48

theorem digitValue_digits {n d : Nat} (h : d ∈ Nat.digits 10 n) :
    digitValue (Fin.ofNat 256 (48 + d)) = d := by
  have hlt : d < 10 := Nat.digits_lt_base (by decide) h
  simp only [digitValue, Fin.ofNat]
  omega

/-- The digits denote the number. -/
theorem ofDigits_digits (n : Nat) : Nat.ofDigits 10 ((digits n).reverse.map digitValue) = n := by
  unfold digits
  split_ifs with h
  · rw [h]
    rfl
  · have hmap : (Nat.digits 10 n).map (digitValue ∘ fun d => Fin.ofNat 256 (48 + d)) =
        Nat.digits 10 n := by
      calc (Nat.digits 10 n).map (digitValue ∘ fun d => Fin.ofNat 256 (48 + d))
          = (Nat.digits 10 n).map id := List.map_congr_left fun d hd => digitValue_digits hd
        _ = Nat.digits 10 n := List.map_id _
    rw [← List.map_reverse, List.reverse_reverse, List.map_map, hmap, Nat.ofDigits_digits]

theorem digits_injective : Function.Injective digits := by
  intro n m h
  rw [← ofDigits_digits n, h, ofDigits_digits]

theorem digits_range {n : Nat} {b : Byte} (h : b ∈ digits n) : 48 ≤ b.val ∧ b.val < 58 := by
  unfold digits at h
  split_ifs at h with hn
  · obtain rfl := List.mem_singleton.mp h
    decide
  · obtain ⟨d, hd, rfl⟩ := List.mem_map.mp h
    have hlt : d < 10 := Nat.digits_lt_base (by decide) (List.mem_reverse.mp hd)
    simp only [Fin.ofNat]
    omega

theorem digits_ne_minus (n : Nat) (ds : List Byte) : digits n ≠ 45 :: ds := by
  intro h
  have := digits_range (n := n) (b := 45) (by simp [h])
  revert this
  decide

/-- Signed decimal rendering loses nothing. -/
theorem decimal_injective : Function.Injective decimal := by
  intro n m h
  unfold decimal at h
  split_ifs at h with hn hm hm
  · have := digits_injective (List.cons.inj h).2
    omega
  · exact absurd h.symm (digits_ne_minus _ _)
  · exact absurd h (digits_ne_minus _ _)
  · have := digits_injective h
    omega

theorem decimal_range {num : Int} {b : Byte} (h : b ∈ decimal num) : 45 ≤ b.val ∧ b.val < 58 := by
  unfold decimal at h
  split_ifs at h
  · rcases List.mem_cons.mp h with rfl | h
    · decide
    · have := digits_range h
      omega
  · have := digits_range h
    omega

theorem exec_command_eq (cmd : List Byte) : exec_command cmd = frame STAR CR LF cmd := by
  simp [exec_command, frame, ascii]

def Request.Numeric : Request → Prop
  | exec_command _ => False
  | _ => True

/-- exec_command with a string that is neither cut off nor taken apart. -/
def Request.Plain : Request → Prop
  | exec_command command => ∀ c ∈ command, c ≠ unit NUL ∧ c ≠ unit CR ∧ c ≠ unit LF
  | _ => True

/-- The connection carries one frame. -/
def Request.OneFrame (r : Request) : Prop :=
  ∃ body, r.transmit = frame STAR CR LF body ∧ CR ∉ body ∧ LF ∉ body

/-- What the device finds on the connections of a sequence of calls. -/
def received (requests : List Request) : List (Option (List Byte)) :=
  requests.flatMap fun r => commands STAR CR LF r.transmit

/-- A device answers a command with a line. -/
structure Device where
  answer : List Byte → List Byte
  one_line : ∀ command, LF ∉ answer command

/-- The answers to the commands on a connection. -/
def Device.reply (device : Device) (stream : List Byte) : List Byte :=
  (commands STAR CR LF stream).flatMap fun
    | none => []
    | some command => device.answer command ++ [LF]

/-- Each call transmits one frame, the device recovers what was asked for, and its answer
to that decides what the call returns. -/
structure Faithful (requests : List Request) : Prop where
  one_frame : ∀ r ∈ requests, r.OneFrame
  recovered : received requests = requests.map fun r => some r.command
  decided : ∀ r ∈ requests, ∀ device : Device,
    succeeded (device.reply r.transmit) = succeeded (device.answer r.command)

theorem transmit_eq (r : Request) :
    r.transmit = frame STAR CR LF (match r with
      | .exec_command command => (c_str (encode command)).bytes
      | r => r.command) := by
  cases r with
  | send ir_num => exact exec_command_eq _
  | receive ir_num => exact exec_command_eq _
  | exec_command command => exact exec_command_eq _

theorem commands_frame {body : List Byte} (h : CR ∉ body) :
    commands STAR CR LF (frame STAR CR LF body) = [some body] := by
  have hstar : STAR ≠ CR := by decide
  have hone : commands STAR CR LF ([body].flatMap (frame STAR CR LF)) = [body].map some :=
    commands_frames hstar (by simpa using h)
  rwa [List.flatMap_singleton] at hone

theorem takeWhile_line {line : List Byte} (h : LF ∉ line) (rest : List Byte) :
    (line ++ LF :: rest).takeWhile (· ≠ LF) = line := by
  have hall : ∀ b ∈ line, decide (b ≠ LF) = true := fun b hb =>
    decide_eq_true fun he => h (he ▸ hb)
  rw [List.takeWhile_append_of_pos hall, List.takeWhile_cons_of_neg (by simp), List.append_nil]

/-- Only the first line of a reply counts. -/
theorem succeeded_line {line : List Byte} (h : LF ∉ line) (rest : List Byte) :
    succeeded (line ++ LF :: rest) = succeeded line := by
  have hall : ∀ b ∈ line, decide (b ≠ LF) = true := fun b hb =>
    decide_eq_true fun he => h (he ▸ hb)
  have hself := List.takeWhile_eq_self_iff.mpr hall
  simp only [succeeded, takeWhile_line h, hself]

theorem succeeded_reply {body : List Byte} (h : CR ∉ body) (device : Device) :
    succeeded (device.reply (frame STAR CR LF body)) = succeeded (device.answer body) := by
  rw [Device.reply, commands_frame h, List.flatMap_singleton]
  exact succeeded_line (device.one_line body) []

theorem received_of_oneFrame {requests : List Request} {body : Request → List Byte}
    (h : ∀ r ∈ requests, r.transmit = frame STAR CR LF (body r) ∧ CR ∉ body r) :
    received requests = requests.map fun r => some (body r) := by
  induction requests with
  | nil => rfl
  | cons r requests ih =>
    obtain ⟨ht, hc⟩ := h r (by simp)
    have hrest := ih fun d hd => h d (List.mem_cons_of_mem r hd)
    rw [received, List.flatMap_cons, ← received, hrest, ht, commands_frame hc]
    rfl

theorem numeric_command {r : Request} (h : r.Numeric) :
    r.transmit = frame STAR CR LF r.command ∧ CR ∉ r.command ∧ LF ∉ r.command := by
  have hnot (p : List Byte) (num : Int) (hp : CR ∉ p ∧ LF ∉ p) :
      CR ∉ p ++ decimal num ∧ LF ∉ p ++ decimal num := by
    constructor
    · intro hm
      refine (List.mem_append.mp hm).elim hp.1 fun hd => ?_
      exact absurd (decimal_range hd).1 (by decide)
    · intro hm
      refine (List.mem_append.mp hm).elim hp.2 fun hd => ?_
      exact absurd (decimal_range hd).1 (by decide)
  cases r with
  | send ir_num => exact ⟨transmit_eq _, hnot _ _ (by decide)⟩
  | receive ir_num => exact ⟨transmit_eq _, hnot _ _ (by decide)⟩
  | exec_command command => exact h.elim

theorem plain_command {command : List CodeUnit} :
    (Request.exec_command command).Plain ↔
      NUL ∉ encode command ∧ CR ∉ encode command ∧ LF ∉ encode command := by
  rw [mem_encode_ascii_iff (by decide), mem_encode_ascii_iff (by decide),
    mem_encode_ascii_iff (by decide)]
  constructor
  · intro h
    exact ⟨fun hm => (h _ hm).1 rfl, fun hm => (h _ hm).2.1 rfl, fun hm => (h _ hm).2.2 rfl⟩
  · rintro ⟨hn, hc, hl⟩ c hm
    exact ⟨fun he => hn (he ▸ hm), fun he => hc (he ▸ hm), fun he => hl (he ▸ hm)⟩

/-- A call of either kind: a plain one is framed as it was asked for. -/
theorem plain_transmit {r : Request} (h : r.Plain) :
    r.transmit = frame STAR CR LF r.command ∧ CR ∉ r.command ∧ LF ∉ r.command := by
  cases r with
  | send ir_num => exact numeric_command trivial
  | receive ir_num => exact numeric_command trivial
  | exec_command command =>
    obtain ⟨hn, hc, hl⟩ := plain_command.mp h
    refine ⟨?_, hc, hl⟩
    rw [transmit_eq]
    exact congrArg _ (c_str_of_nul_free hn)

theorem numeric_injective : Set.InjOn Request.transmit {r | r.Numeric} := by
  intro a ha b hb h
  rw [(numeric_command ha).1, (numeric_command hb).1] at h
  have hc : a.command = b.command := by simpa [frame] using h
  have hsend (n : Int) : (Request.send n).command = 105 :: 115 :: 59 :: decimal n := rfl
  have hreceive (n : Int) : (Request.receive n).command = 105 :: 99 :: 59 :: decimal n := rfl
  cases a with
  | send n =>
    cases b with
    | send m =>
      have hd : decimal n = decimal m := by simpa [hsend] using hc
      rw [decimal_injective hd]
    | receive m =>
      rw [hsend, hreceive] at hc
      simp at hc
    | exec_command command => exact hb.elim
  | receive n =>
    cases b with
    | send m =>
      rw [hsend, hreceive] at hc
      simp at hc
    | receive m =>
      have hd : decimal n = decimal m := by simpa [hreceive] using hc
      rw [decimal_injective hd]
    | exec_command command => exact hb.elim
  | exec_command command => exact ha.elim

/-- Different numeric requests have different frames; a sequence of calls is framed and
recovered exactly when no string given to exec_command has a NUL, a CR or a LF. -/
theorem faithful_iff (requests : List Request) :
    Set.InjOn Request.transmit {r | r.Numeric} ∧
      (Faithful requests ↔ ∀ r ∈ requests, r.Plain) := by
  refine ⟨numeric_injective, fun h r hr => ?_, fun h => ?_⟩
  · obtain ⟨body, hbody⟩ : ∃ body : Request → List Byte, ∀ r ∈ requests,
        r.transmit = frame STAR CR LF (body r) ∧ CR ∉ body r ∧ LF ∉ body r := by
      choose! body hbody using h.one_frame
      exact ⟨body, hbody⟩
    have hrec := received_of_oneFrame fun r hr => ⟨(hbody r hr).1, (hbody r hr).2.1⟩
    have hsame := List.map_inj_left.mp (hrec.symm.trans h.recovered) r hr
    obtain ⟨ht, hc, hl⟩ := hbody r hr
    rw [Option.some.inj hsame] at ht hc hl
    cases r with
    | send ir_num => trivial
    | receive ir_num => trivial
    | exec_command command =>
      rw [transmit_eq] at ht
      have hcut : (c_str (encode command)).bytes = encode command := by
        simpa [frame, Request.command] using ht
      exact plain_command.mpr ⟨(c_str_eq_self_iff _).mp hcut, hc, hl⟩
  · refine ⟨fun r hr => ⟨r.command, plain_transmit (h r hr)⟩, ?_, fun r hr device => ?_⟩
    · exact received_of_oneFrame fun r hr =>
        ⟨(plain_transmit (h r hr)).1, (plain_transmit (h r hr)).2.1⟩
    · obtain ⟨ht, hc, -⟩ := plain_transmit (h r hr)
      rw [ht]
      exact succeeded_reply hc device

/-- Two commands in one call. -/
theorem two_commands_not_faithful :
    ¬ Faithful [.exec_command ((ascii "is;1\r\n*is;2").map unit)] := by
  intro h
  have hrec : received [.exec_command ((ascii "is;1\r\n*is;2").map unit)] =
      [some (ascii "is;1"), some (ascii "is;2")] := by decide +kernel
  have := hrec.symm.trans h.recovered
  simp at this

/-- A line that says of a command that it was carried out. -/
structure Accepting (line : List Byte) : Prop where
  not_blank : ∃ b ∈ line, b ≠ CR
  no_err : ¬ ascii "err" <:+: line

/-- The verdict on the first bytes of a reply. -/
structure Trustworthy (reply : List Byte) (received : Nat) : Prop where
  complete : succeeded (reply.take received) = true →
    ∃ line rest, reply.take received = line ++ LF :: rest ∧ LF ∉ line ∧ Accepting line
  consistent : succeeded (reply.take received) = true → succeeded reply = true

/-- The first line has come with its end and is more than carriage returns, or what has
come of it is empty or has err in it. -/
def Settled (received : List Byte) : Prop :=
  let line := received.takeWhile (· ≠ LF)
  (LF ∈ received ∧ ∃ b ∈ line, b ≠ CR) ∨ line = [] ∨ ascii "err" <:+: line

theorem any_tails_isPrefixOf (s line : List Byte) :
    (line.tails.any fun t => s.isPrefixOf t) = true ↔ s <:+: line := by
  rw [List.any_eq_true, List.infix_iff_prefix_suffix]
  simp only [List.mem_tails, List.isPrefixOf_iff_prefix]
  exact exists_congr fun t => and_comm

theorem succeeded_iff (reply : List Byte) :
    succeeded reply = true ↔ reply.takeWhile (· ≠ LF) ≠ [] ∧
      ¬ ascii "err" <:+: reply.takeWhile (· ≠ LF) := by
  rw [← any_tails_isPrefixOf]
  simp [succeeded]

/-- A list that has a line feed begins with a line. -/
theorem eq_line_append {bytes : List Byte} (h : LF ∈ bytes) :
    ∃ rest, bytes = bytes.takeWhile (· ≠ LF) ++ LF :: rest := by
  have hsplit := List.takeWhile_append_dropWhile (p := fun b => decide (b ≠ LF)) (l := bytes)
  have hhead := List.head?_dropWhile_not (fun b => decide (b ≠ LF)) bytes
  cases hdrop : bytes.dropWhile (· ≠ LF) with
  | nil =>
    rw [hdrop, List.append_nil] at hsplit
    have hfree := List.mem_takeWhile_imp (hsplit.symm ▸ h)
    simp at hfree
  | cons b rest =>
    rw [hdrop] at hsplit hhead
    obtain rfl : b = LF := by simpa using hhead
    exact ⟨rest, hsplit.symm⟩

/-- Success is reported rightly, for a reply that may be cut off, exactly if what has come
settles the matter. -/
theorem trustworthy_iff (reply : List Byte) (received : Nat) :
    Trustworthy reply received ↔ Settled (reply.take received) := by
  have hsucceeded := succeeded_iff (reply.take received)
  constructor
  · intro h
    by_cases hs : succeeded (reply.take received) = true
    · obtain ⟨line, rest, heq, hline, haccept⟩ := h.complete hs
      left
      rw [heq, takeWhile_line hline]
      exact ⟨by simp, haccept.not_blank⟩
    · rw [hsucceeded, not_and_or, not_not, not_not] at hs
      exact .inr hs
  · intro h
    have hline : succeeded (reply.take received) = true →
        ∃ line rest, reply.take received = line ++ LF :: rest ∧ LF ∉ line ∧ Accepting line := by
      intro hs
      obtain ⟨hne, herr⟩ := hsucceeded.mp hs
      obtain ⟨hlf, hblank⟩ := h.resolve_right (not_or.mpr ⟨hne, herr⟩)
      obtain ⟨rest, hrest⟩ := eq_line_append hlf
      refine ⟨_, rest, hrest, fun hmem => ?_, hblank, herr⟩
      simpa using List.mem_takeWhile_imp hmem
    refine ⟨hline, fun hs => ?_⟩
    obtain ⟨line, rest, heq, hfree, -⟩ := hline hs
    have hreply : reply = line ++ LF :: (rest ++ reply.drop received) := by
      rw [← List.cons_append, ← List.append_assoc, ← heq, List.take_append_drop]
    rw [heq, succeeded_line hfree] at hs
    rw [hreply, succeeded_line hfree]
    exact hs

/-- An error that is cut off within the word. -/
theorem cut_error_not_trustworthy : ¬ Trustworthy (ascii "is;err;001\r\n") 4 := by
  intro h
  have hcut : succeeded ((ascii "is;err;001\r\n").take 4) = true := by decide +kernel
  exact absurd (h.consistent hcut) (by decide +kernel)

end HAS.IRemocon
