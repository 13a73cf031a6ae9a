import Kohl.Pallet.Codec
import Kohl.Runtime.Api
import Kohl.Wallet.Cache
import Kohl.Wallet.Text

/-!
# The wallet's client and the node behind it

`wallet/src/rpc.rs` asks a node through the `ringct_*` methods of `node/src/rpc.rs`, and where an older node
lacks one, through `state_call` with the name of the runtime API. The two ways carry the same values in
different clothes: JSON numbers and hexadecimal text on the one, SCALE on the other. The frontier is the
exception. The runtime API returns it as bytes that are encoded already, so `state_call` hands them out
encoded twice, and the wallet cannot decode them; it then asks for the digests one by one.

* `preferring_node`: a value that both ways carry is read on every node.
* `membershipFrontier_node`: the frontier never comes through `state_call`.
* `client_any_node`: what the wallet reads, and the snapshot it builds, do not depend on the methods that
  the node has.
-/

namespace Kohl

open ByteLib Run Scale Pallet RuntimeApi MembershipTree

/-! ## JSON-RPC -/

/-- JSON values as far as the calls use them. -/
inductive Json
  | null
  | bool (b : Bool)
  | number (n : UInt64)
  | text (s : Bytes)
  | object (fields : List (String × Json))

namespace Json

def asU64 : Json → Option UInt64
  | .number n => some n
  | _ => none

def asBool : Json → Option Bool
  | .bool b => some b
  | _ => none

def asStr : Json → Option Bytes
  | .text s => some s
  | _ => none

def get (field : String) : Json → Option Json
  | .object fields => (fields.find? fun f => f.1 == field).map Prod.snd
  | _ => none

end Json

/-- A node as its clients see it: the methods with JSON parameters, and `state_call` with the name of a
runtime API and its arguments in hexadecimal. A transport failure and an error object are both errors. -/
structure Endpoint where
  call : String → List Json → Except String Json
  stateCall : String → Bytes → Except String Json

/-! ## The wallet's client -/

namespace Wallet

/-- `T::decode(&mut &bytes[..])?`; bytes behind the value are ignored. -/
def decoded {α : Type} (dec : Decoder α) (bytes : Bytes) : Except String α :=
  match dec bytes with
  | none => .error "codec"
  | some (a, _) => .ok a

def hexDecoded (s : Bytes) : Except String Bytes := (Hex.decode s).mapError fun _ => "hex"

def RpcClient.runtimeCall (rpc : Endpoint) (apiMethod : String) (args : Bytes) : Except String Bytes := do
  let result ← rpc.stateCall apiMethod (ascii "0x" ++ Hex.encode args)
  let s ← okOr result.asStr "state_call: non-string result"
  hexDecoded (trimStartMatches0x s)

/-- A dedicated method, and what to do without its answer; `read` says whether an answer is used. -/
def preferring {α : Type} (rpc : Endpoint) (method : String) (params : List Json)
    (read : Json → Option (Except String α)) (fallback : Except String α) : Except String α :=
  match rpc.call method params with
  | .error _ => fallback
  | .ok v => (read v).getD fallback

namespace RpcClient

def bestNumber (rpc : Endpoint) : Except String ℕ := do
  let header ← rpc.call "chain_getHeader" []
  let num ← okOr ((header.get "number").bind Json.asStr) "no header number"
  okOr (Hex.fromStrRadix16 (trimStartMatches0x num)) "radix"

def outputCount (rpc : Endpoint) : Except String UInt64 :=
  preferring rpc "ringct_outputCount" [] (fun v => v.asU64.map .ok) do
    decoded decodeU64 (← runtimeCall rpc "RingCtApi_output_count" [])

def minFeePerByte (rpc : Endpoint) : Except String UInt64 :=
  preferring rpc "ringct_minFeePerByte" [] (fun v => v.asU64.map .ok) do
    decoded decodeU64 (← runtimeCall rpc "RingCtApi_min_fee_per_byte" [])

def isKeyImageSpent (rpc : Endpoint) (keyImage : Bytes32) : Except String Bool :=
  preferring rpc "ringct_isKeyImageSpent" [.text (ascii "0x" ++ Hex.encode keyImage.val)]
    (fun v => v.asBool.map .ok) do
    decoded decodeBool (← runtimeCall rpc "RingCtApi_is_key_image_spent" keyImage.val)

/-- Every output created in the blocks from `first` to `last`; the block numbers are `u32`. -/
def outputsInRange (rpc : Endpoint) (first last : ℕ) : Except String (List Entry) :=
  preferring rpc "ringct_outputsInRange" [.number (UInt64.ofNat first), .number (UInt64.ofNat last)]
    (fun v => v.asStr.map fun s => do decoded decodeFeed (← hexDecoded (trimStartMatches0x s))) do
    decoded decodeFeed
      (← runtimeCall rpc "RingCtApi_outputs_in_range" (leBytes 4 first ++ leBytes 4 last))

def membershipRoot (rpc : Endpoint) : Except String Bytes32 :=
  preferring rpc "ringct_membershipRoot" []
    (fun v => v.asStr.map fun s => (parseHex32 s).mapError fun _ => "hex") do
    decoded decodeArray32 (← runtimeCall rpc "RingCtApi_membership_root" [])

def treeSlots (rpc : Endpoint) : Except String UInt64 :=
  preferring rpc "ringct_treeSlots" [] (fun v => v.asU64.map .ok) do
    decoded decodeU64 (← runtimeCall rpc "RingCtApi_tree_slots" [])

def isAdmitted (rpc : Endpoint) (index : UInt64) : Except String Bool :=
  preferring rpc "ringct_isAdmitted" [.number index] (fun v => v.asBool.map .ok) do
    decoded decodeBool (← runtimeCall rpc "RingCtApi_is_admitted" (u64LeBytes index))

/-- A missing digest is `null` on the one way, and `None` on the other. -/
def membershipLeafDigest (rpc : Endpoint) (index : UInt64) : Except String (Option Bytes32) :=
  preferring rpc "ringct_membershipLeafDigest" [.number index]
    (fun v =>
      match v with
      | .null => some (.ok none)
      | .text s => some (((parseHex32 s).mapError fun _ => "hex").map some)
      | _ => none) do
    decoded (decodeOption decodeArray32)
      (← runtimeCall rpc "RingCtApi_membership_leaf_digest" (u64LeBytes index))

/-- The digests of all slots. -/
def membershipFrontier (rpc : Endpoint) : Except String (List Bytes32) :=
  preferring rpc "ringct_membershipFrontier" []
    (fun v => v.asStr.map fun s => do
      decoded (decodeVec decodeArray32) (← hexDecoded (trimStartMatches0x s))) do
    decoded (decodeVec decodeArray32) (← runtimeCall rpc "RingCtApi_membership_frontier" [])

/-- The answers `membership_snapshot` works with. -/
def snapshotAnswers (rpc : Endpoint) : SnapshotAnswers where
  membershipRoot := membershipRoot rpc
  treeSlots := treeSlots rpc
  membershipFrontier := membershipFrontier rpc
  membershipLeafDigest := membershipLeafDigest rpc

/-- The answers `refresh_membership_cache` works with first. -/
def tipAnswers (rpc : Endpoint) : TipAnswers where
  bestNumber := bestNumber rpc
  membershipRoot := membershipRoot rpc
  treeSlots := treeSlots rpc

end RpcClient

end Wallet

/-! ## The node -/

/-- A node at its best block: the storage and the number of the block, the order it iterates the outputs
in, and the `ringct_*` methods it has. -/
structure Node where
  cfg : Config
  store : Storage
  best : ℕ
  order : Iteration Entry
  serves : String → Bool

namespace Node

variable (H : Host) (n : Node)

/-- The `ringct_*` methods. -/
def ringct (method : String) (params : List Json) : Except String Json :=
  match method, params with
  | "ringct_outputCount", [] => .ok (.number (UInt64.ofNat (outputCount n.store)))
  | "ringct_minFeePerByte", [] => .ok (.number n.cfg.minFeePerByte)
  | "ringct_isKeyImageSpent", [.text ki] =>
    match parseKi ki with
    | .error _ => .error "key_image"
    | .ok ki => .ok (.bool (isKeyImageSpent n.store ki))
  | "ringct_outputsInRange", [.number first, .number last] =>
    if first.toNat < 2 ^ 32 ∧ last.toNat < 2 ^ 32 then
      .ok (.text (ascii "0x" ++
        Hex.encode (encodeFeed (outputsInRange n.order n.store first.toNat last.toNat))))
    else .error "Invalid params"
  | "ringct_membershipRoot", [] => .ok (.text (hex32 n.store.membershipRoot))
  | "ringct_treeSlots", [] => .ok (.number (UInt64.ofNat n.store.treeSlots))
  | "ringct_isAdmitted", [.number index] => .ok (.bool (isAdmitted n.store index))
  | "ringct_membershipLeafDigest", [.number index] =>
    match membershipLeafDigest n.store index with
    | none => .ok .null
    | some d => .ok (.text (hex32 d))
  | "ringct_membershipFrontier", [] =>
    .ok (.text (ascii "0x" ++ Hex.encode (Pallet.membershipFrontier H n.store)))
  | _, _ => .error "Method not found"

/-- The arguments of a runtime API, all bytes of them. -/
def arguments {α : Type} (dec : Decoder α) (args : Bytes) : Except String α :=
  match dec args with
  | some (a, []) => .ok a
  | _ => .error "Bad input data"

/-- The runtime API; the result is encoded. -/
def runtimeApi (api : String) (args : Bytes) : Except String Bytes :=
  match api with
  | "RingCtApi_output_count" => .ok (u64LeBytes (UInt64.ofNat (outputCount n.store)))
  | "RingCtApi_min_fee_per_byte" => .ok (u64LeBytes n.cfg.minFeePerByte)
  | "RingCtApi_is_key_image_spent" => do
    let ki ← arguments decodeArray32 args
    .ok (encodeBool (isKeyImageSpent n.store ki))
  | "RingCtApi_outputs_in_range" => do
    let range ← arguments (do
      let first ← decodeU32
      let last ← decodeU32
      return (first, last)) args
    .ok (encodeFeed (outputsInRange n.order n.store range.1 range.2))
  | "RingCtApi_membership_root" => .ok n.store.membershipRoot.val
  | "RingCtApi_tree_slots" => .ok (u64LeBytes (UInt64.ofNat n.store.treeSlots))
  | "RingCtApi_is_admitted" => do
    let index ← arguments decodeU64 args
    .ok (encodeBool (isAdmitted n.store index))
  | "RingCtApi_membership_leaf_digest" => do
    let index ← arguments decodeU64 args
    .ok (encodeOption Subtype.val (membershipLeafDigest n.store index))
  -- the frontier is a vector of bytes, and is encoded as one
  | "RingCtApi_membership_frontier" => .ok (byteVec (Pallet.membershipFrontier H n.store))
  | _ => .error "Exported method not found"

def endpoint : Endpoint where
  call method params :=
    if method = "chain_getHeader" then
      .ok (.object [("number", .text (ascii "0x" ++ Hex.numeral n.best))])
    else if n.serves method then ringct H n method params
    else .error "Method not found"
  stateCall api hexArgs :=
    match Hex.decode (trimStartMatches0x hexArgs) with
    | .error _ => .error "Invalid params"
    | .ok args => (runtimeApi H n api args).map fun bytes => .text (ascii "0x" ++ Hex.encode bytes)

end Node

/-- The node behind a chain of blocks. -/
def nodeAt (H : Host) (cfg : Config) (blocks : List (List (Origin × Call))) (order : Iteration Entry)
    (serves : String → Bool) : Node where
  cfg := cfg
  store := (afterBlocks H cfg blocks).store
  best := blocks.length
  order := order
  serves := serves

/-! ## One value, two ways -/

namespace ClientLemmas

open Wallet TextLemmas

variable {H : Host} {n : Node} {α : Type}

theorem decoded_eq_ok {valid : α → Prop} {enc : α → Bytes} {dec : Decoder α} (h : Exact valid enc dec)
    {a : α} (ha : valid a) : decoded dec (enc a) = .ok a := by
  have hdec := h.decode_encode ha []
  rw [List.append_nil] at hdec
  rw [decoded, hdec]

theorem arguments_eq_ok {valid : α → Prop} {enc : α → Bytes} {dec : Decoder α}
    (h : Exact valid enc dec) {a : α} (ha : valid a) : Node.arguments dec (enc a) = .ok a := by
  have hdec := h.decode_encode ha []
  rw [List.append_nil] at hdec
  rw [Node.arguments, hdec]

/-- Bytes in hexadecimal behind `0x` are found behind it. -/
theorem trim_hex (b : Bytes) : trimStartMatches0x (ascii "0x" ++ Hex.encode b) = Hex.encode b := by
  have hdigits : ∀ c ∈ Hex.encode b, IsDigit c := fun c hc => isDigit_of_mem (Hex.map_lower_encode b) hc
  exact trimStartMatches0x_of_digits hdigits 1

theorem hexDecoded_trim (b : Bytes) :
    hexDecoded (trimStartMatches0x (ascii "0x" ++ Hex.encode b)) = .ok b := by
  rw [trim_hex, hexDecoded, Hex.decode_encode]
  rfl

/-- `state_call` hands out the encoded result of the runtime API. -/
theorem runtimeCall_node {api : String} {args bytes : Bytes}
    (h : Node.runtimeApi H n api args = .ok bytes) :
    RpcClient.runtimeCall (n.endpoint H) api args = .ok bytes := by
  have hcall : (n.endpoint H).stateCall api (ascii "0x" ++ Hex.encode args) =
      .ok (.text (ascii "0x" ++ Hex.encode bytes)) := by
    simp only [Node.endpoint, trim_hex, Hex.decode_encode, h]
    rfl
  rw [RpcClient.runtimeCall, hcall]
  exact hexDecoded_trim bytes

/-- A value that the dedicated method and the runtime API agree on is read on every node. -/
theorem preferring_node {method : String} {params : List Json}
    {read : Json → Option (Except String α)} {fallback : Except String α} {a : α} {v : Json}
    (hne : method ≠ "chain_getHeader") (hcall : Node.ringct H n method params = .ok v)
    (hread : read v = some (.ok a)) (hfallback : fallback = .ok a) :
    preferring (n.endpoint H) method params read fallback = .ok a := by
  have hendpoint : (n.endpoint H).call method params =
      if n.serves method then .ok v else .error "Method not found" := by
    show (if method = "chain_getHeader" then _ else _) = _
    rw [if_neg hne, hcall]
  rw [preferring, hendpoint]
  split
  · exact hfallback
  · next v' hv' =>
    split at hv'
    · cases hv'
      rw [hread]
      rfl
    · cases hv'

theorem parseHex32_hex32 (b : Bytes32) : parseHex32 (Node.hex32 b) = .ok b :=
  parseHex32_eq_ok.mpr (spaced_of_prefixed (Node.prefixed_hex32 b))

theorem outputCount_node : RpcClient.outputCount (n.endpoint H) =
    .ok (UInt64.ofNat (outputCount n.store)) := by
  refine preferring_node (by simp) rfl rfl ?_
  rw [runtimeCall_node (n := n) (H := H) rfl]
  exact decoded_eq_ok exact_u64 trivial

theorem minFeePerByte_node : RpcClient.minFeePerByte (n.endpoint H) = .ok n.cfg.minFeePerByte := by
  refine preferring_node (by simp) rfl rfl ?_
  rw [runtimeCall_node (n := n) (H := H) rfl]
  exact decoded_eq_ok exact_u64 trivial

theorem treeSlots_node : RpcClient.treeSlots (n.endpoint H) =
    .ok (UInt64.ofNat n.store.treeSlots) := by
  refine preferring_node (by simp) rfl rfl ?_
  rw [runtimeCall_node (n := n) (H := H) rfl]
  exact decoded_eq_ok exact_u64 trivial

theorem membershipRoot_node : RpcClient.membershipRoot (n.endpoint H) =
    .ok n.store.membershipRoot := by
  refine preferring_node (v := .text (Node.hex32 n.store.membershipRoot)) (by simp) rfl ?_ ?_
  · show some ((parseHex32 (Node.hex32 n.store.membershipRoot)).mapError _) = _
    rw [parseHex32_hex32]
    rfl
  · rw [runtimeCall_node (n := n) (H := H) rfl]
    exact decoded_eq_ok exact_array32 trivial

theorem isKeyImageSpent_node (ki : Bytes32) : RpcClient.isKeyImageSpent (n.endpoint H) ki =
    .ok (isKeyImageSpent n.store ki) := by
  have hparse : Node.parseKi (ascii "0x" ++ Hex.encode ki.val) = .ok ki :=
    Node.parseKi_eq_ok.mpr (spaced_of_prefixed (Node.prefixed_hex32 ki))
  refine preferring_node (v := .bool (isKeyImageSpent n.store ki)) (by simp) ?_ rfl ?_
  · conv => lhs; whnf
    rw [hparse]
  · have hrun : Node.runtimeApi H n "RingCtApi_is_key_image_spent" ki.val =
        .ok (encodeBool (isKeyImageSpent n.store ki)) := by
      show (Node.arguments decodeArray32 ki.val >>= _) = _
      rw [arguments_eq_ok exact_array32 trivial]
      rfl
    rw [runtimeCall_node hrun]
    exact decoded_eq_ok exact_bool trivial

theorem isAdmitted_node (index : UInt64) : RpcClient.isAdmitted (n.endpoint H) index =
    .ok (isAdmitted n.store index) := by
  refine preferring_node (v := .bool (isAdmitted n.store index)) (by simp) rfl rfl ?_
  have hrun : Node.runtimeApi H n "RingCtApi_is_admitted" (u64LeBytes index) =
      .ok (encodeBool (isAdmitted n.store index)) := by
    show (Node.arguments decodeU64 (u64LeBytes index) >>= _) = _
    rw [arguments_eq_ok exact_u64 trivial]
    rfl
  rw [runtimeCall_node hrun]
  exact decoded_eq_ok exact_bool trivial

theorem membershipLeafDigest_node (index : UInt64) :
    RpcClient.membershipLeafDigest (n.endpoint H) index =
      .ok (membershipLeafDigest n.store index) := by
  have hfallback : (do
      decoded (decodeOption decodeArray32)
        (← RpcClient.runtimeCall (n.endpoint H) "RingCtApi_membership_leaf_digest"
          (u64LeBytes index))) = .ok (membershipLeafDigest n.store index) := by
    have hrun : Node.runtimeApi H n "RingCtApi_membership_leaf_digest" (u64LeBytes index) =
        .ok (encodeOption Subtype.val (membershipLeafDigest n.store index)) := by
      show (Node.arguments decodeU64 (u64LeBytes index) >>= _) = _
      rw [arguments_eq_ok exact_u64 trivial]
      rfl
    rw [runtimeCall_node hrun]
    exact decoded_eq_ok exact_array32.option fun _ _ => trivial
  cases hdigest : membershipLeafDigest n.store index with
  | none =>
    rw [hdigest] at hfallback
    refine preferring_node (v := .null) (by simp) ?_ rfl hfallback
    conv => lhs; whnf
    rw [hdigest]
  | some d =>
    rw [hdigest] at hfallback
    refine preferring_node (v := .text (Node.hex32 d)) (by simp) ?_ ?_ hfallback
    · conv => lhs; whnf
      rw [hdigest]
    · show some (((parseHex32 (Node.hex32 d)).mapError _).map some) = _
      rw [parseHex32_hex32]
      rfl

theorem outputsInRange_node {first last : ℕ} (hfirst : first < 2 ^ 32) (hlast : last < 2 ^ 32)
    (hfeed : (outputsInRange n.order n.store first last).length < 2 ^ 32)
    (hheights : ∀ x ∈ outputsInRange n.order n.store first last, x.2.height < 2 ^ 32) :
    RpcClient.outputsInRange (n.endpoint H) first last =
      .ok (outputsInRange n.order n.store first last) := by
  have hdecoded : decoded decodeFeed (encodeFeed (outputsInRange n.order n.store first last)) =
      .ok (outputsInRange n.order n.store first last) := decoded_eq_ok exact_feed ⟨hfeed, hheights⟩
  have hback : ∀ {k : ℕ}, k < 2 ^ 32 → (UInt64.ofNat k).toNat = k := by
    intro k hk
    rw [UInt64.toNat_ofNat']
    exact Nat.mod_eq_of_lt (by omega)
  refine preferring_node (v := .text (ascii "0x" ++
    Hex.encode (encodeFeed (outputsInRange n.order n.store first last)))) (by simp) ?_ ?_ ?_
  · show (if (UInt64.ofNat first).toNat < 2 ^ 32 ∧ (UInt64.ofNat last).toNat < 2 ^ 32 then
      Except.ok (Json.text (ascii "0x" ++ Hex.encode (encodeFeed (outputsInRange n.order n.store
        (UInt64.ofNat first).toNat (UInt64.ofNat last).toNat))))
      else .error "Invalid params") = _
    rw [hback hfirst, hback hlast, if_pos ⟨hfirst, hlast⟩]
  · show some (hexDecoded (trimStartMatches0x _) >>= fun bytes => decoded decodeFeed bytes) = _
    rw [hexDecoded_trim]
    exact congrArg some hdecoded
  · have hpair : Exact (fun x : ℕ × ℕ => x.1 < 2 ^ 32 ∧ x.2 < 2 ^ 32)
        (fun x => leBytes 4 x.1 ++ leBytes 4 x.2) (do
          let first ← decodeU32
          let last ← decodeU32
          return (first, last)) := by
      intro b x rest
      simp only [exact_u32.bind_iff, pure_run, Prod.mk.injEq]
      constructor
      · rintro ⟨a, r, ⟨ha, rfl⟩, c, r', ⟨hc, rfl⟩, rfl, rfl⟩
        exact ⟨⟨ha, hc⟩, (List.append_assoc _ _ _).symm⟩
      · rintro ⟨⟨ha, hc⟩, rfl⟩
        exact ⟨x.1, _, ⟨ha, List.append_assoc _ _ _⟩, x.2, rest, ⟨hc, rfl⟩, rfl, rfl⟩
    have hrun : Node.runtimeApi H n "RingCtApi_outputs_in_range" (leBytes 4 first ++ leBytes 4 last) =
        .ok (encodeFeed (outputsInRange n.order n.store first last)) := by
      show (Node.arguments _ _ >>= _) = _
      rw [@arguments_eq_ok _ _ _ _ hpair (first, last) ⟨hfirst, hlast⟩]
      rfl
    rw [runtimeCall_node hrun]
    exact hdecoded

theorem bestNumber_node (hbest : n.best < 2 ^ 32) : RpcClient.bestNumber (n.endpoint H) = .ok n.best := by
  have hdigits : ∀ c ∈ Hex.numeral n.best, IsDigit c := by
    intro c hc
    obtain ⟨d, hd, rfl⟩ := Hex.mem_numeral hc
    exact ⟨d, hd, Hex.lower_digit hd⟩
  have htrim : trimStartMatches0x (ascii "0x" ++ Hex.numeral n.best) = Hex.numeral n.best :=
    trimStartMatches0x_of_digits hdigits 1
  show okOr (Hex.fromStrRadix16 (trimStartMatches0x (ascii "0x" ++ Hex.numeral n.best))) "radix" = _
  rw [htrim, Hex.fromStrRadix16_numeral hbest]
  rfl

/-! ## The frontier and the snapshot -/

theorem length_digestsOf (H : Host) (s : Storage) : (digestsOf H s).length = s.treeSlots := by
  rw [digestsOf, List.length_map, List.length_range]

/-- An encoded vector of digests that is encoded again, as bytes, is no vector of digests: it would need
thirty-two bytes for each of its bytes. -/
theorem decodeVec_byteVec {digests : List Bytes32} (hfits : 32 * digests.length + 5 < 2 ^ 32) :
    decodeVec decodeArray32 (byteVec (Scale.vec Subtype.val digests)) = none := by
  have hlen : (Scale.vec Subtype.val digests).length < 2 ^ 32 := by
    have hle := @Scale.length_vec_le _ Subtype.val 32 digests fun x _ => (Bytes32.length_val x).le
    omega
  have hpos : 0 < (Scale.vec Subtype.val digests).length := by
    have hcompact : 0 < (compactU32 digests.length).length := by
      unfold compactU32
      split_ifs <;> simp
    rw [Scale.vec, List.length_append]
    omega
  cases hdec : decodeVec decodeArray32 (byteVec (Scale.vec Subtype.val digests)) with
  | none => rfl
  | some r =>
    obtain ⟨xs, rest⟩ := r
    obtain ⟨⟨hxs, -⟩, heq⟩ := (exact_array32.vec _ _ _).mp hdec
    have hflat : (xs.flatMap Subtype.val).length = xs.length * 32 := by
      rw [List.length_flatMap]
      simp only [Bytes32.length_val, List.map_const', List.sum_replicate, smul_eq_mul]
    have hcompact : byteVec (Scale.vec Subtype.val digests) ++ [] =
        compactU32 xs.length ++ (xs.flatMap Subtype.val ++ rest) := by
      rw [List.append_nil, heq, Scale.vec, List.append_assoc]
    rw [byteVec, List.append_assoc] at hcompact
    obtain ⟨hcount, htail⟩ := compactU32_append hlen hxs hcompact
    have htotal := congrArg List.length htail
    rw [List.append_nil, List.length_append, hflat] at htotal
    omega

/-- The frontier comes through its method, and never through `state_call`. -/
theorem membershipFrontier_node (hfits : 32 * n.store.treeSlots + 5 < 2 ^ 32) :
    RpcClient.membershipFrontier (n.endpoint H) =
      if n.serves "ringct_membershipFrontier" then .ok (digestsOf H n.store)
      else .error "codec" := by
  have hlen := length_digestsOf H n.store
  have hfallback : (do
      decoded (decodeVec decodeArray32)
        (← RpcClient.runtimeCall (n.endpoint H) "RingCtApi_membership_frontier" [])) =
      .error "codec" := by
    rw [runtimeCall_node (n := n) (H := H) rfl]
    show decoded (decodeVec decodeArray32) (byteVec (Scale.vec Subtype.val (digestsOf H n.store))) = _
    rw [decoded, decodeVec_byteVec (by rw [hlen]; exact hfits)]
  have hserved : (hexDecoded (trimStartMatches0x (ascii "0x" ++
      Hex.encode (Pallet.membershipFrontier H n.store))) >>= fun bytes =>
        decoded (decodeVec decodeArray32) bytes) = .ok (digestsOf H n.store) := by
    rw [hexDecoded_trim]
    exact decoded_eq_ok exact_array32.vec ⟨by omega, fun _ _ => trivial⟩
  have hcall : (n.endpoint H).call "ringct_membershipFrontier" [] =
      if n.serves "ringct_membershipFrontier" then
        .ok (.text (ascii "0x" ++ Hex.encode (Pallet.membershipFrontier H n.store)))
      else .error "Method not found" := rfl
  rw [RpcClient.membershipFrontier, preferring, hcall]
  cases n.serves "ringct_membershipFrontier" with
  | false => exact hfallback
  | true => exact hserved

theorem slotBySlot_node (hfits : n.store.treeSlots < 2 ^ 64) :
    slotBySlot H.blake2_256 (RpcClient.snapshotAnswers (n.endpoint H))
      (UInt64.ofNat n.store.treeSlots) = .ok (digestsOf H n.store) := by
  have hback : (UInt64.ofNat n.store.treeSlots).toNat = n.store.treeSlots := by
    rw [UInt64.toNat_ofNat']
    exact Nat.mod_eq_of_lt hfits
  rw [slotBySlot, hback, digestsOf]
  refine tryMap_eq_ok fun i hi => ?_
  have hlt : i < 2 ^ 64 := (List.mem_range.mp hi).trans hfits
  show ((answered (RpcClient.membershipLeafDigest (n.endpoint H) (UInt64.ofNat i))).map _) = _
  rw [membershipLeafDigest_node, membershipLeafDigest, UInt64.toNat_ofNat', Nat.mod_eq_of_lt hlt]
  rfl

/-- Whether the digests come at once or one by one, they are those of the storage. -/
theorem fetchDigests_node (hfits : 32 * n.store.treeSlots + 5 < 2 ^ 32) :
    fetchDigests H.blake2_256 (RpcClient.snapshotAnswers (n.endpoint H))
      (UInt64.ofNat n.store.treeSlots) = .ok (digestsOf H n.store) := by
  have hfrontier : (RpcClient.snapshotAnswers (n.endpoint H)).membershipFrontier = _ :=
    membershipFrontier_node hfits
  rw [fetchDigests, hfrontier]
  cases n.serves "ringct_membershipFrontier" with
  | false => exact slotBySlot_node (by omega)
  | true =>
    show (if UInt64.ofNat (digestsOf H n.store).length = UInt64.ofNat n.store.treeSlots then _ else _) =
      _
    rw [length_digestsOf, if_pos rfl]

theorem membershipSnapshot_node (hfits : 32 * n.store.treeSlots + 5 < 2 ^ 32) (outputs : List Entry) :
    membershipSnapshot H.blake2_256 (RpcClient.snapshotAnswers (n.endpoint H)) outputs =
      (snapshotFromFrontier H.blake2_256 n.store.membershipRoot (digestsOf H n.store)
        outputs).mapError .wallet := by
  have hroot : answered (RpcClient.snapshotAnswers (n.endpoint H)).membershipRoot =
      .ok n.store.membershipRoot := congrArg answered membershipRoot_node
  have hslots : answered (RpcClient.snapshotAnswers (n.endpoint H)).treeSlots =
      .ok (UInt64.ofNat n.store.treeSlots) := congrArg answered treeSlots_node
  rw [membershipSnapshot, hroot, hslots, ok_bind, ok_bind, fetchDigests_node hfits, ok_bind]

/-- The outputs of a range of blocks are a part of the ledger. -/
theorem feed_bounds (H : Host) (cfg : Config) (blocks : List (List (Origin × Call)))
    (order : Iteration Entry) (first last : ℕ) :
    (outputsInRange order (afterBlocks H cfg blocks).store first last).length ≤
        (afterBlocks H cfg blocks).store.nextOutputIndex ∧
      ∀ x ∈ outputsInRange order (afterBlocks H cfg blocks).store first last,
        x.2.height ≤ blocks.length := by
  have hperm := @ApiLemmas.within_ledger_perm H cfg (blocks.flatMap blockOps) _ order rfl first last
  constructor
  · refine hperm.length_eq.trans_le ((List.length_filter_le _ _).trans ?_)
    rw [ApiLemmas.length_indexed]
    exact (@ledger_spec H cfg (blocks.flatMap blockOps)).2.ge
  · intro x hx
    have hnumber : (run (step H cfg) (.genesis H) (blocks.flatMap blockOps)).number = blocks.length :=
      (@number_afterBlocks H cfg blocks).1
    have hmem := List.mem_of_mem_filter (hperm.mem_iff.mp hx)
    rw [← hnumber]
    exact (@LedgerLemmas.heights_ledger H cfg (blocks.flatMap blockOps)).2 x.2
      (ApiLemmas.snd_mem_of_indexed hmem)

section Chain

variable {cfg : Config} {blocks : List (List (Origin × Call))} {order : Iteration Entry}
  {serves : String → Bool}

theorem treeSlots_nodeAt : (nodeAt H cfg blocks order serves).store.treeSlots =
    (afterBlocks H cfg blocks).store.nextOutputIndex :=
  (@treeInv_run_genesis H cfg (blocks.flatMap blockOps)).2

theorem outputsInRange_nodeAt (hheight : blocks.length < 2 ^ 32)
    (hfits : (afterBlocks H cfg blocks).store.nextOutputIndex < 2 ^ 32) {first last : ℕ}
    (hfirst : first < 2 ^ 32) (hlast : last < 2 ^ 32) :
    RpcClient.outputsInRange ((nodeAt H cfg blocks order serves).endpoint H) first last =
      .ok (outputsInRange order (afterBlocks H cfg blocks).store first last) := by
  obtain ⟨hlength, hblocks⟩ := feed_bounds H cfg blocks order first last
  exact outputsInRange_node hfirst hlast (hlength.trans_lt hfits) fun x hx =>
    (hblocks x hx).trans_lt hheight

end Chain

end ClientLemmas

open ClientLemmas Wallet Cyclic

/-- A wallet reads the same values from every node behind a chain of fewer than 2^32 blocks, as long as the
digests of all its outputs and their length prefix fit 2^32 bytes, whichever of the `ringct_*` methods the
node has: the height, the fee, the outputs of any range of blocks, the key images, the root, the slots and
their digests are those of the storage. The frontier alone is read only where its own method is there. The
snapshot does not depend on that, since the digests are then asked for one by one: it is the one built from
the storage. -/
theorem client_any_node (H : Host) (cfg : Config) (blocks : List (List (Origin × Call)))
    (order : Iteration Entry) (serves : String → Bool) (hheight : blocks.length < 2 ^ 32)
    (hfits : 32 * (afterBlocks H cfg blocks).store.nextOutputIndex + 5 < 2 ^ 32) :
    let s := (afterBlocks H cfg blocks).store
    let rpc := (nodeAt H cfg blocks order serves).endpoint H
    RpcClient.bestNumber rpc = .ok blocks.length ∧
    RpcClient.outputCount rpc = .ok (UInt64.ofNat s.nextOutputIndex) ∧
    RpcClient.minFeePerByte rpc = .ok cfg.minFeePerByte ∧
    (∀ ki, RpcClient.isKeyImageSpent rpc ki = .ok (s.keyImages.containsKey ki)) ∧
    (∀ first last, first < 2 ^ 32 → last < 2 ^ 32 →
      RpcClient.outputsInRange rpc first last = .ok (outputsInRange order s first last)) ∧
    RpcClient.membershipRoot rpc = .ok s.membershipRoot ∧
    RpcClient.treeSlots rpc = .ok (UInt64.ofNat s.nextOutputIndex) ∧
    (∀ index, RpcClient.isAdmitted rpc index = .ok (s.admitted.containsKey index.toNat)) ∧
    (∀ index, RpcClient.membershipLeafDigest rpc index =
      .ok (s.membershipLeafDigest.get index.toNat)) ∧
    RpcClient.membershipFrontier rpc =
      (if serves "ringct_membershipFrontier" then .ok (digestsOf H s) else .error "codec") ∧
    ∀ outputs, membershipSnapshot H.blake2_256 (RpcClient.snapshotAnswers rpc) outputs =
      (snapshotFromFrontier H.blake2_256 s.membershipRoot (digestsOf H s) outputs).mapError
        .wallet := by
  dsimp only
  have hslots : 32 * (nodeAt H cfg blocks order serves).store.treeSlots + 5 < 2 ^ 32 := by
    rw [treeSlots_nodeAt]
    exact hfits
  refine ⟨bestNumber_node hheight, outputCount_node, minFeePerByte_node, isKeyImageSpent_node,
    fun first last => outputsInRange_nodeAt hheight (by omega), membershipRoot_node, ?_,
    isAdmitted_node, membershipLeafDigest_node, membershipFrontier_node hslots,
    membershipSnapshot_node hslots⟩
  rw [← @treeSlots_nodeAt H cfg blocks order serves]
  exact treeSlots_node

/-- A node with none of the methods, behind a block with one payout. -/
theorem client_any_node_payout :
    let E := cyclic ristrettoOrder
    let rpc := (nodeAt (nativeHost E) eagerConfig [payoutBlock] Iteration.asKept fun _ => false).endpoint
      (nativeHost E)
    RpcClient.outputCount rpc = .ok 1 ∧ RpcClient.membershipFrontier rpc = .error "codec" := by
  intro E rpc
  have hone : (afterBlocks (nativeHost E) eagerConfig [payoutBlock]).store.nextOutputIndex = 1 := by
    decide +kernel
  obtain ⟨-, hcount, -, -, -, -, -, -, -, hfrontier, -⟩ := client_any_node (nativeHost E) eagerConfig
    [payoutBlock] Iteration.asKept (fun _ => false) (by decide) (by rw [hone]; decide)
  rw [hone] at hcount
  exact ⟨hcount, hfrontier⟩

end Kohl
