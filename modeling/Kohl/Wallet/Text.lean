import Kohl.Lib.Hex
import Kohl.Wallet.Transfer

/-!
# Texts that users and nodes exchange

The parsers of seeds, addresses and 32-byte values in the wallet (`wallet/src/main.rs`, `wallet/src/rpc.rs`)
and in the node (`node/src/rpc.rs`, `node/src/command.rs`), and what is printed for them. A text is its
UTF-8 bytes. The node's parsers strip white space on both sides, the wallet's seed parser does not; all of
them remove every `0x` in front.

* `parseSeed_eq_ok`, `parseKi_eq_ok`: the texts that stand for a 32-byte value.
* `parseAddress_eq_ok`: the texts that stand for an address.
* `texts_exact`: the languages of all parsers, and that a seed means the same to the wallet and a miner.
-/

namespace Kohl

open ByteLib

/-! ## Stripping -/

/-- `trim_start_matches("0x")`. -/
def trimStartMatches0x (s : Bytes) : Bytes := Hex.stripAll [ascii "0x"] s.length s

/-- The characters of Unicode's White_Space in UTF-8. -/
def whiteSpace : List Bytes :=
  [[9], [10], [11], [12], [13], [32], [0xC2, 0x85], [0xC2, 0xA0], [0xE1, 0x9A, 0x80],
    [0xE2, 0x80, 0x80], [0xE2, 0x80, 0x81], [0xE2, 0x80, 0x82], [0xE2, 0x80, 0x83],
    [0xE2, 0x80, 0x84], [0xE2, 0x80, 0x85], [0xE2, 0x80, 0x86], [0xE2, 0x80, 0x87],
    [0xE2, 0x80, 0x88], [0xE2, 0x80, 0x89], [0xE2, 0x80, 0x8A], [0xE2, 0x80, 0xA8],
    [0xE2, 0x80, 0xA9], [0xE2, 0x80, 0xAF], [0xE2, 0x81, 0x9F], [0xE3, 0x80, 0x80]]

def trimStart (s : Bytes) : Bytes := Hex.stripAll whiteSpace s.length s

def trimEnd (s : Bytes) : Bytes :=
  (Hex.stripAll (whiteSpace.map List.reverse) s.length s.reverse).reverse

/-- `str::trim`. -/
def trim (s : Bytes) : Bytes := trimEnd (trimStart s)

/-! ## The parsers -/

/-- Why a text is refused: what the digits fail with, behind the words of the parser, or a message. -/
inductive TextError
  | hex (words : String) (e : Hex.FromHexError)
  | message (text : String)
deriving DecidableEq, Repr

/-- Thirty-two bytes of digits behind what `strip` removes; `wrong` is the message for another number of
bytes. -/
def parseBytes32 (strip : Bytes → Bytes) (words : String) (wrong : ℕ → String) (s : Bytes) :
    Except TextError Bytes32 :=
  match Hex.decode (strip s) with
  | .error e => .error (.hex words e)
  | .ok bytes =>
    match Bytes32.ofBytes bytes with
    | none => .error (.message (wrong bytes.length))
    | some b => .ok b

namespace Wallet

/-- `--seed` of the wallet. -/
def parseSeed : Bytes → Except TextError Bytes32 :=
  parseBytes32 trimStartMatches0x "" fun _ => "seed must be 32 bytes (64 hex chars)"

/-- A 32-byte value in an answer of the node. -/
def parseHex32 : Bytes → Except TextError Bytes32 :=
  parseBytes32 (fun s => trimStartMatches0x (trim s)) "" fun n => s!"expected 32 bytes, got {n}"

def parseAddress (s : Bytes) : Except TextError Stealth.StealthAddress :=
  if (ascii "kohl:").isPrefixOf s then
    match Hex.decode (s.drop 5) with
    | .error e => .error (.hex "" e)
    | .ok bytes =>
      if bytes.length ≠ 64 then .error (.message "address must encode 64 bytes (view||spend)")
      else
        match Bytes32.ofBytes (bytes.take 32), Bytes32.ofBytes (bytes.drop 32) with
        | some viewPublic, some spendPublic => .ok ⟨viewPublic, spendPublic⟩
        | _, _ => .error (.message "address must encode 64 bytes (view||spend)")
  else .error (.message "address must start with 'kohl:'")

variable {l : ℕ} {Point : Type} [AddCommGroup Point] [Module (ZMod l) Point]

def addressString {E : CryptoLib l Point} (w : Wallet E) : Bytes :=
  ascii "kohl:" ++ Hex.encode w.address.viewPublic.val ++ Hex.encode w.address.spendPublic.val

end Wallet

namespace Node

/-- A key image in a request to the node. -/
def parseKi : Bytes → Except TextError Bytes32 :=
  parseBytes32 (fun s => trimStartMatches0x (trim s)) "key_image hex: " fun n =>
    s!"key_image must be 32 bytes, got {n}"

/-- `--mining-seed` of the node, if given. -/
def parseMiningSeed : Option Bytes → Except TextError (Option Bytes32)
  | none => .ok none
  | some s =>
    (parseBytes32 (fun s => trimStartMatches0x (trim s)) "mining-seed: " (fun n =>
      s!"mining-seed must be 32 bytes (64 hex chars), got {n}") s).map some

def hex32 (b : Bytes32) : Bytes := ascii "0x" ++ Hex.encode b.val

/-- The address in the log of a node that mines to the keys of a seed. -/
def payoutAddress (a : Stealth.StealthAddress) : Bytes :=
  ascii "kohl:" ++ Hex.encode a.viewPublic.val ++ Hex.encode a.spendPublic.val

end Node

/-! ## The languages of the parsers -/

/-- The digits `h`, of either case, stand for the bytes `b`. -/
def Spells (h b : Bytes) : Prop := h.map Hex.lower = Hex.encode b

/-- `k` times `0x`, and digits that stand for `b`. -/
def Prefixed (s b : Bytes) : Prop :=
  ∃ k h, s = (List.replicate k (ascii "0x")).flatten ++ h ∧ Spells h b

/-- The same between white space. -/
def Spaced (s b : Bytes) : Prop :=
  ∃ ws ws' : List Bytes, ∃ core, (∀ p ∈ ws, p ∈ whiteSpace) ∧ (∀ p ∈ ws', p ∈ whiteSpace) ∧
    s = ws.flatten ++ (core ++ ws'.flatten) ∧ Prefixed core b

/-! ## Texts of digits -/

namespace TextLemmas

/-- A byte that is a digit of either case. -/
def IsDigit (c : UInt8) : Prop := ∃ n < 16, Hex.lower c = Hex.digit n

theorem isDigit_of_mem {h b : Bytes} (hb : h.map Hex.lower = Hex.encode b) {c : UInt8} (hc : c ∈ h) :
    IsDigit c := by
  have hmem : Hex.lower c ∈ Hex.encode b := hb ▸ List.mem_map_of_mem hc
  obtain ⟨x, -, hx⟩ := List.mem_flatMap.mp hmem
  have hlt := x.toNat_lt
  simp only [List.mem_cons, List.not_mem_nil, or_false] at hx
  rcases hx with hx | hx
  · exact ⟨_, by omega, hx⟩
  · exact ⟨_, by omega, hx⟩

/-- A digit is no byte of a pattern that is not one. -/
theorem toNat_of_isDigit {c : UInt8} (h : IsDigit c) :
    (48 ≤ c.toNat ∧ c.toNat ≤ 57) ∨ (65 ≤ c.toNat ∧ c.toNat ≤ 70) ∨
      (97 ≤ c.toNat ∧ c.toNat ≤ 102) := by
  obtain ⟨n, hn, heq⟩ := h
  have hnat := congrArg UInt8.toNat heq
  rw [Hex.toNat_lower, Hex.toNat_digit hn] at hnat
  split at hnat <;> split at hnat <;> omega

/-- Digits are followed by digits, so no pattern with another byte within the first two stands in front
of them. -/
theorem bare_of_digits {pats : List Bytes} {h : Bytes} (hdigits : ∀ c ∈ h, IsDigit c)
    (hpats : ∀ p ∈ pats, ∃ c ∈ p, ¬IsDigit c) : Hex.Bare pats h := by
  intro p hp hpre
  obtain ⟨c, hc, hno⟩ := hpats p hp
  exact hno (hdigits c (hpre.subset hc))

theorem not_isDigit {c : UInt8} (h : c.toNat < 48 ∨ 102 < c.toNat) : ¬IsDigit c := by
  intro hd
  have := toNat_of_isDigit hd
  omega

theorem zeroX_not_digit : ∀ p ∈ [ascii "0x"], ∃ c ∈ p, ¬IsDigit c := by
  intro p hp
  rw [List.mem_singleton] at hp
  subst hp
  exact ⟨120, by decide, not_isDigit (.inr (by decide))⟩

end TextLemmas

open TextLemmas

/-! ## What the parsers accept -/

namespace TextLemmas

theorem zeroX_code : Hex.PatternCode [ascii "0x"] := by decide

theorem whiteSpace_code : Hex.PatternCode whiteSpace := by decide

theorem reversed_code : Hex.PatternCode (whiteSpace.map List.reverse) := by decide

/-- A run of `0x` in front of digits is removed. -/
theorem trimStartMatches0x_of_digits {h : Bytes} (hdigits : ∀ c ∈ h, IsDigit c) (k : ℕ) :
    trimStartMatches0x ((List.replicate k (ascii "0x")).flatten ++ h) = h := by
  refine Hex.stripAll_flatten zeroX_code (fun p hp => ?_)
    (bare_of_digits hdigits zeroX_not_digit) ?_
  · rw [List.eq_of_mem_replicate hp]
    exact List.mem_singleton_self _
  · rw [List.length_append, List.length_flatten, List.length_replicate, List.map_replicate,
      List.sum_replicate]
    show k ≤ k • 2 + h.length
    rw [smul_eq_mul]
    omega

/-- What is removed is a run of `0x`. -/
theorem exists_of_trimStartMatches0x (s : Bytes) :
    ∃ k, s = (List.replicate k (ascii "0x")).flatten ++ trimStartMatches0x s := by
  obtain ⟨front, hfront, heq⟩ := Hex.exists_of_stripAll [ascii "0x"] s.length s
  refine ⟨front.length, ?_⟩
  have hall : front = List.replicate front.length (ascii "0x") :=
    List.eq_replicate_of_mem fun p hp => List.mem_singleton.mp (hfront p hp)
  rw [← hall]
  exact heq

theorem length_le_flatten {pats : List Bytes} (hcode : Hex.PatternCode pats) {front : List Bytes}
    (hfront : ∀ p ∈ front, p ∈ pats) : front.length ≤ front.flatten.length := by
  induction front with
  | nil => exact Nat.zero_le _
  | cons p front ih =>
    rw [List.forall_mem_cons] at hfront
    have hpos : p ≠ [] := fun hp => hcode.1 (hp ▸ hfront.1)
    have hlen := List.length_pos_iff.mpr hpos
    rw [List.flatten_cons, List.length_append, List.length_cons]
    have := ih hfront.2
    omega

/-- No pattern begins with a digit, so none stands in front of one. -/
theorem bare_cons {pats : List Bytes} (hcode : Hex.PatternCode pats)
    (hheads : ∀ p ∈ pats, ∀ c ∈ p.head?, c.toNat < 48 ∨ 102 < c.toNat) {c : UInt8} (hc : IsDigit c)
    (t : Bytes) : Hex.Bare pats (c :: t) := by
  intro p hp hpre
  cases p with
  | nil => exact hcode.1 hp
  | cons x p =>
    have hx : x = c := (List.cons_prefix_cons.mp hpre).1
    exact not_isDigit (hheads _ hp x rfl) (hx ▸ hc)

theorem whiteSpace_heads : ∀ p ∈ whiteSpace, ∀ c ∈ p.head?, c.toNat < 48 ∨ 102 < c.toNat := by
  simp [whiteSpace]

theorem reversed_heads :
    ∀ p ∈ whiteSpace.map List.reverse, ∀ c ∈ p.head?, c.toNat < 48 ∨ 102 < c.toNat := by
  simp [whiteSpace]

/-- White space around a text that begins and ends with a digit is removed. -/
theorem trim_of_spaced {ws ws' : List Bytes} (hws : ∀ p ∈ ws, p ∈ whiteSpace)
    (hws' : ∀ p ∈ ws', p ∈ whiteSpace) {core t t' : Bytes} {c c' : UInt8} (hc : IsDigit c)
    (hc' : IsDigit c') (hcore : core = c :: t) (hback : core.reverse = c' :: t') :
    trim (ws.flatten ++ (core ++ ws'.flatten)) = core := by
  have hstart : trimStart (ws.flatten ++ (core ++ ws'.flatten)) = core ++ ws'.flatten := by
    refine Hex.stripAll_flatten whiteSpace_code hws ?_ ?_
    · rw [hcore]
      exact bare_cons whiteSpace_code whiteSpace_heads hc _
    · rw [List.length_append]
      exact Nat.le_add_right_of_le (length_le_flatten whiteSpace_code hws)
  have hmem : ∀ p ∈ (ws'.map List.reverse).reverse, p ∈ whiteSpace.map List.reverse := by
    intro p hp
    obtain ⟨q, hq, rfl⟩ := List.mem_map.mp (List.mem_reverse.mp hp)
    exact List.mem_map_of_mem (hws' q hq)
  have hrev : (core ++ ws'.flatten).reverse =
      (ws'.map List.reverse).reverse.flatten ++ core.reverse := by
    rw [List.reverse_append, List.reverse_flatten]
  rw [trim, hstart, trimEnd, hrev]
  have hbare : Hex.Bare (whiteSpace.map List.reverse) core.reverse := by
    rw [hback]
    exact bare_cons reversed_code reversed_heads hc' _
  rw [Hex.stripAll_flatten reversed_code hmem hbare, List.reverse_reverse]
  have hlen := length_le_flatten reversed_code hmem
  have htotal : (core ++ ws'.flatten).length =
      (ws'.map List.reverse).reverse.flatten.length + core.reverse.length := by
    rw [← List.length_reverse, hrev, List.length_append]
  omega

/-- What is removed is white space. -/
theorem exists_of_trim (s : Bytes) : ∃ ws ws' : List Bytes, (∀ p ∈ ws, p ∈ whiteSpace) ∧
    (∀ p ∈ ws', p ∈ whiteSpace) ∧ s = ws.flatten ++ (trim s ++ ws'.flatten) := by
  obtain ⟨ws, hws, hstart⟩ := Hex.exists_of_stripAll whiteSpace s.length s
  obtain ⟨back, hmem, hend⟩ := Hex.exists_of_stripAll (whiteSpace.map List.reverse)
    (trimStart s).length (trimStart s).reverse
  refine ⟨ws, (back.map List.reverse).reverse, hws, fun p hp => ?_, ?_⟩
  · obtain ⟨q, hq, rfl⟩ := List.mem_map.mp (List.mem_reverse.mp hp)
    obtain ⟨r, hr, rfl⟩ := List.mem_map.mp (hmem q hq)
    rw [List.reverse_reverse]
    exact hr
  · have hback := congrArg List.reverse hend
    rw [List.reverse_reverse, List.reverse_append, List.reverse_flatten] at hback
    exact hstart.trans (congrArg _ hback)

end TextLemmas

/-- The texts a parser of 32 bytes accepts are those that its stripping leaves digits of. -/
theorem parseBytes32_eq_ok {strip : Bytes → Bytes} {words : String} {wrong : ℕ → String} {s : Bytes}
    {b : Bytes32} : parseBytes32 strip words wrong s = .ok b ↔ Spells (strip s) b.val := by
  unfold parseBytes32
  split
  · next e he =>
    constructor
    · intro h
      cases h
    · intro h
      rw [Hex.decode_eq_ok.mpr h] at he
      cases he
  · next bytes hbytes =>
    have hiff : Spells (strip s) b.val ↔ bytes = b.val := by
      rw [Spells, ← Hex.decode_eq_ok, hbytes, Except.ok.injEq]
    rw [hiff]
    split
    · next hnone =>
      constructor
      · intro h
        cases h
      · intro h
        rw [Bytes32.ofBytes_eq_some.mpr h.symm] at hnone
        cases hnone
    · next a ha =>
      rw [Except.ok.injEq, ← Bytes32.ofBytes_eq_some.mp ha, Subtype.ext_iff]

namespace TextLemmas

theorem spells_ne_nil {h : Bytes} {b : Bytes32} (hb : Spells h b.val) : h ≠ [] := by
  rintro rfl
  have hlen := congrArg List.length hb
  rw [List.length_map, Hex.length_encode, Bytes32.length_val] at hlen
  cases hlen

theorem prefixed_iff {s : Bytes} {b : Bytes32} :
    Spells (trimStartMatches0x s) b.val ↔ Prefixed s b.val := by
  constructor
  · intro h
    obtain ⟨k, hk⟩ := exists_of_trimStartMatches0x s
    exact ⟨k, _, hk, h⟩
  · rintro ⟨k, h, rfl, hb⟩
    rw [trimStartMatches0x_of_digits (fun c hc => isDigit_of_mem hb hc) k]
    exact hb

/-- A prefixed text of 32 bytes begins and ends with a digit. -/
theorem ends_of_prefixed {core : Bytes} {b : Bytes32} (h : Prefixed core b.val) :
    (∃ c t, IsDigit c ∧ core = c :: t) ∧ ∃ c t, IsDigit c ∧ core.reverse = c :: t := by
  obtain ⟨k, h, rfl, hb⟩ := h
  have hdigit : ∀ c ∈ h, IsDigit c := fun c hc => isDigit_of_mem hb hc
  have hne := spells_ne_nil hb
  constructor
  · cases k with
    | zero =>
      cases h with
      | nil => exact absurd rfl hne
      | cons c t => exact ⟨c, t, hdigit c List.mem_cons_self, rfl⟩
    | succ k => exact ⟨48, _, ⟨0, by decide, by decide⟩, rfl⟩
  · cases hrev : h.reverse with
    | nil => exact absurd (List.reverse_eq_nil_iff.mp hrev) hne
    | cons c t =>
      refine ⟨c, t ++ (List.replicate k (ascii "0x")).flatten.reverse, ?_, ?_⟩
      · exact hdigit c (List.mem_reverse.mp (hrev ▸ List.mem_cons_self))
      · rw [List.reverse_append, hrev, List.cons_append]

theorem spaced_iff {s : Bytes} {b : Bytes32} :
    Spells (trimStartMatches0x (trim s)) b.val ↔ Spaced s b.val := by
  rw [prefixed_iff]
  constructor
  · intro h
    obtain ⟨ws, ws', hws, hws', heq⟩ := exists_of_trim s
    exact ⟨ws, ws', trim s, hws, hws', heq, h⟩
  · rintro ⟨ws, ws', core, hws, hws', rfl, hcore⟩
    obtain ⟨⟨c, t, hc, hfront⟩, c', t', hc', hback⟩ := ends_of_prefixed hcore
    rw [trim_of_spaced hws hws' hc hc' hfront hback]
    exact hcore

theorem spaced_of_prefixed {s b : Bytes} (h : Prefixed s b) : Spaced s b := by
  refine ⟨[], [], s, fun p hp => absurd hp List.not_mem_nil, fun p hp => absurd hp List.not_mem_nil,
    ?_, h⟩
  rw [List.flatten_nil, List.nil_append, List.append_nil]

end TextLemmas

namespace Wallet

theorem parseSeed_eq_ok {s : Bytes} {b : Bytes32} : parseSeed s = .ok b ↔ Prefixed s b.val :=
  parseBytes32_eq_ok.trans prefixed_iff

theorem parseHex32_eq_ok {s : Bytes} {b : Bytes32} : parseHex32 s = .ok b ↔ Spaced s b.val :=
  parseBytes32_eq_ok.trans spaced_iff

/-- The texts of an address. -/
theorem parseAddress_eq_ok {s : Bytes} {a : Stealth.StealthAddress} :
    parseAddress s = .ok a ↔
      ∃ h, s = ascii "kohl:" ++ h ∧ Spells h (a.viewPublic.val ++ a.spendPublic.val) := by
  have hscheme : (ascii "kohl:").length = 5 := rfl
  unfold parseAddress
  split
  · next hpre =>
    obtain ⟨h, rfl⟩ := List.isPrefixOf_iff_prefix.mp hpre
    have hiff : (∃ h', ascii "kohl:" ++ h = ascii "kohl:" ++ h' ∧
        Spells h' (a.viewPublic.val ++ a.spendPublic.val)) ↔
        Spells h (a.viewPublic.val ++ a.spendPublic.val) := by
      constructor
      · rintro ⟨h', heq, hspells⟩
        rw [List.append_cancel_left heq]
        exact hspells
      · intro hspells
        exact ⟨h, rfl, hspells⟩
    rw [hiff, Spells, ← Hex.decode_eq_ok, List.drop_left' hscheme]
    cases hdecode : Hex.decode h with
    | error e =>
      constructor
      · intro h
        cases h
      · intro h
        cases h
    | ok bytes =>
      rw [Except.ok.injEq]
      show (if bytes.length ≠ 64 then _ else _) = _ ↔ _
      constructor
      · intro h
        split at h
        · cases h
        split at h
        · next v sp hv hsp =>
          cases h
          rw [Bytes32.ofBytes_eq_some.mp hv, Bytes32.ofBytes_eq_some.mp hsp, List.take_append_drop]
        · cases h
      · rintro rfl
        have hv : Bytes32.ofBytes ((a.viewPublic.val ++ a.spendPublic.val).take 32) =
            some a.viewPublic := by
          rw [List.take_left' a.viewPublic.property, Bytes32.ofBytes_eq_some]
        have hsp : Bytes32.ofBytes ((a.viewPublic.val ++ a.spendPublic.val).drop 32) =
            some a.spendPublic := by
          rw [List.drop_left' a.viewPublic.property, Bytes32.ofBytes_eq_some]
        have hlen : (a.viewPublic.val ++ a.spendPublic.val).length = 64 := by
          rw [List.length_append, Bytes32.length_val, Bytes32.length_val]
        rw [if_neg (not_not.mpr hlen), hv, hsp]
  · next hno =>
    constructor
    · intro h
      cases h
    · rintro ⟨h, rfl, -⟩
      exact absurd (List.isPrefixOf_iff_prefix.mpr (List.prefix_append _ _)) hno

theorem parseAddress_payoutAddress (a : Stealth.StealthAddress) :
    parseAddress (Node.payoutAddress a) = .ok a := by
  rw [parseAddress_eq_ok]
  refine ⟨Hex.encode (a.viewPublic.val ++ a.spendPublic.val), ?_, Hex.map_lower_encode _⟩
  rw [Hex.encode_append, Node.payoutAddress, List.append_assoc]

end Wallet

namespace Node

theorem parseKi_eq_ok {s : Bytes} {b : Bytes32} : parseKi s = .ok b ↔ Spaced s b.val :=
  parseBytes32_eq_ok.trans spaced_iff

theorem map_some_eq_ok {ε α : Type} {r : Except ε α} {a : α} :
    Except.map some r = .ok (some a) ↔ r = .ok a := by
  cases r with
  | error e =>
    constructor
    · intro h
      cases h
    · intro h
      cases h
  | ok b =>
    show Except.ok (some b) = _ ↔ _
    rw [Except.ok.injEq, Except.ok.injEq, Option.some.injEq]

theorem parseMiningSeed_eq_ok {s : Bytes} {b : Bytes32} :
    parseMiningSeed (some s) = .ok (some b) ↔ Spaced s b.val := by
  show Except.map some (parseBytes32 _ _ _ s) = _ ↔ _
  rw [map_some_eq_ok, parseBytes32_eq_ok, spaced_iff]

/-- What the node prints, its own parser and the wallet's read back. -/
theorem prefixed_hex32 (b : Bytes32) : Prefixed (hex32 b) b.val :=
  ⟨1, Hex.encode b.val, rfl, Hex.map_lower_encode _⟩

end Node

namespace Wallet

open TextLemmas Node

variable {l : ℕ} {Point : Type} [AddCommGroup Point] [Module (ZMod l) Point]

/-- What a user may type, and what comes of it. The wallet reads a seed from 64 digits of either case
behind any number of `0x`, the node reads a seed or a key image from the same between white space, and an
address is its scheme and 128 digits. So the texts of one address differ in the case of their digits only;
a seed that the wallet reads, the node mines with; and the address the node then prints, the wallet prints
and reads back as the one of that seed. -/
theorem texts_exact (E : CryptoLib l Point) :
    (∀ s seed, parseSeed s = .ok seed ↔ Prefixed s seed.val) ∧
    (∀ s seed, parseMiningSeed (some s) = .ok (some seed) ↔ Spaced s seed.val) ∧
    (∀ s ki, parseKi s = .ok ki ↔ Spaced s ki.val) ∧
    (∀ s a, parseAddress s = .ok a ↔
      ∃ h, s = ascii "kohl:" ++ h ∧ Spells h (a.viewPublic.val ++ a.spendPublic.val)) ∧
    (∀ s s' a, parseAddress s = .ok a → parseAddress s' = .ok a →
      s.map Hex.lower = s'.map Hex.lower) ∧
    (∀ s seed, parseSeed s = .ok seed →
      parseMiningSeed (some s) = .ok (some seed) ∧
      payoutAddress (Stealth.keypairFromSeed E seed).2 = addressString (fromSeed E seed) ∧
      parseAddress (addressString (fromSeed E seed)) = .ok (fromSeed E seed).address) := by
  refine ⟨fun s seed => parseSeed_eq_ok, fun s seed => parseMiningSeed_eq_ok, fun s ki => parseKi_eq_ok,
    fun s a => parseAddress_eq_ok, fun s s' a h h' => ?_, fun s seed h => ⟨?_, rfl, ?_⟩⟩
  · obtain ⟨d, rfl, hd⟩ := parseAddress_eq_ok.mp h
    obtain ⟨d', rfl, hd'⟩ := parseAddress_eq_ok.mp h'
    rw [List.map_append, List.map_append, hd, hd']
  · exact parseMiningSeed_eq_ok.mpr (spaced_of_prefixed (parseSeed_eq_ok.mp h))
  · exact parseAddress_payoutAddress _

end Wallet

end Kohl
