import Edwards25519.Proofs.Envelope
import Edwards25519.Proofs.Randomness

/-! Sessions. Generations and encryptions draw from one source, one after the other. Some of them fail,
before or after a draw, and the next one goes on where the source stands then. No byte of the source is
in two outputs. -/
namespace Edwards25519

namespace Session

inductive Call where
  | generate
  | encrypt (sender recipient : KeyPair) (plaintext : ByteString)

inductive Output where
  | pair (made : KeyPair)
  | envelope (made : ByteString)

/-- The bytes of an output that come from the source: the seed, or the salt and the initial vector. -/
def Output.drawn : Output → ByteString
  | pair made => made.secret?.elim [] (·.seed.toList)
  | envelope made => made.take 48

/-- A call, its result, and the source before and after it. -/
structure Entry where
  call : Call
  before : Source
  result : Except Error Output
  after : Source

/-- How many bytes of the source were gone before the call. -/
def Entry.position (source : Source) (entry : Entry) : ℕ :=
  source.bytes.length - entry.before.bytes.length

variable (suite : Suite)

def Call.perform : Call → Randomized Output
  | generate => .pair <$> KeyPair.generate suite
  | encrypt sender recipient plaintext =>
    .envelope <$> Envelope.encrypt suite sender recipient plaintext

def Call.entry (source : Source) (call : Call) : Entry :=
  let ran := (Randomized.runFrom source (call.perform suite)).value
  ⟨call, source, ran.1, ran.2⟩

/-- The entries of calls that are made in order. -/
def record (source : Source) : List Call → List Entry
  | [] => []
  | call :: calls =>
    let entry := call.entry suite source
    entry :: record entry.after calls

/-- What a call draws, for every way in which it ends. -/
inductive Draws : Call → Source → Except Error Output → Source → Prop
  | generated (seed : Bytes 32) (rest : ByteString) :
    Draws .generate ⟨seed.toList ++ rest⟩ (.ok (.pair (.ofPrivate suite ⟨seed⟩))) ⟨rest⟩
  | noSeed {source : Source} (hshort : source.bytes.length < 32) :
    Draws .generate source (.error .randomnessExhausted) source
  | noSecret {sender : KeyPair} (hsecret : sender.secret? = none) (recipient : KeyPair)
      (plaintext : ByteString) (source : Source) :
    Draws (.encrypt sender recipient plaintext) source (.error .missingPrivateKey) source
  | noSalt {sender : KeyPair} {key : PrivateKey} (hsecret : sender.secret? = some key)
      (recipient : KeyPair) (plaintext : ByteString) {source : Source}
      (hshort : source.bytes.length < 32) :
    Draws (.encrypt sender recipient plaintext) source (.error .randomnessExhausted) source
  | noIv {sender : KeyPair} {key : PrivateKey} (hsecret : sender.secret? = some key)
      (recipient : KeyPair) (plaintext : ByteString) (salt : Bytes 32) {rest : ByteString}
      (hshort : rest.length < 16) :
    Draws (.encrypt sender recipient plaintext) ⟨salt.toList ++ rest⟩
      (.error .randomnessExhausted) ⟨rest⟩
  | undecodable {sender : KeyPair} {key : PrivateKey} (hsecret : sender.secret? = some key)
      {recipient : KeyPair}
      (hpoint : (Extended.decode? recipient.encoded : Option (Extended FieldElement)) = none)
      (plaintext : ByteString) (salt : Bytes 32) (iv : Bytes 16) (rest : ByteString) :
    Draws (.encrypt sender recipient plaintext) ⟨salt.toList ++ iv.toList ++ rest⟩
      (.error .invalidCurvePoint) ⟨rest⟩
  | encrypted {sender : KeyPair} {key : PrivateKey} (hsecret : sender.secret? = some key)
      {recipient : KeyPair} {salt : Bytes 32} {shared : Bytes 32}
      (hshared : (Envelope.sharedKey suite key recipient.publicKey salt).value = .ok shared)
      (plaintext : ByteString) (iv : Bytes 16) (rest : ByteString) :
    Draws (.encrypt sender recipient plaintext) ⟨salt.toList ++ iv.toList ++ rest⟩
      (.ok (.envelope (salt.toList ++ iv.toList ++
        Chaining.encrypt (suite.encryptBlock shared) iv plaintext))) ⟨rest⟩

variable {suite} {call : Call} {before after : Source} {result : Except Error Output}

/-- An output shows the bytes between the two sources. -/
lemma Draws.of_ok {out : Output} (h : Draws suite call before (.ok out) after) :
    before.bytes = out.drawn ++ after.bytes := by
  cases h with
  | generated seed rest => rfl
  | encrypted hsecret hshared plaintext iv rest =>
    rw [Output.drawn, List.take_left' (by simp)]

/-- Nothing is handed back. -/
lemma Draws.isSuffix (h : Draws suite call before result after) : after.bytes <:+ before.bytes := by
  cases h with
  | generated seed rest => exact List.suffix_append _ _
  | noSeed | noSecret | noSalt => exact List.suffix_refl _
  | noIv => exact List.suffix_append _ _
  | undecodable => exact List.suffix_append _ _
  | encrypted => exact List.suffix_append _ _

variable (suite) (source : Source)

lemma draws_generate : Draws suite .generate source
    ((Randomized.runFrom source (KeyPair.generate suite)).value.1.map .pair)
    (Randomized.runFrom source (KeyPair.generate suite)).value.2 := by
  obtain ⟨s⟩ := source
  rw [KeyPair.generate]
  rcases lt_or_ge s.length 32 with hshort | hlong
  · rw [Randomized.value_draw_bind_of_lt hshort]
    exact .noSeed hshort
  · obtain ⟨seed, rest, rfl⟩ := Bytes.exists_toList_append hlong
    rw [Randomized.runFrom_draw_bind]
    exact .generated seed rest

/-- The secret is asked for first, then the salt and the initial vector are drawn, and then the point
of the recipient is decoded. -/
lemma draws_encrypt (sender recipient : KeyPair) (plaintext : ByteString) :
    Draws suite (.encrypt sender recipient plaintext) source
      ((Randomized.runFrom source
        (Envelope.encrypt suite sender recipient plaintext)).value.1.map .envelope)
      (Randomized.runFrom source (Envelope.encrypt suite sender recipient plaintext)).value.2 := by
  obtain ⟨s⟩ := source
  rw [Envelope.encrypt]
  cases hsecret : sender.secret? with
  | none =>
    have hrequire : (pure sender.requireSecret : Logged (Except Error PrivateKey)).value =
        .error .missingPrivateKey := by rw [Logged.value_pure, KeyPair.requireSecret, hsecret]
    rw [Randomized.value_ofLogged_bind_of_error hrequire]
    exact .noSecret hsecret recipient plaintext _
  | some key =>
    have hrequire : (pure sender.requireSecret : Logged (Except Error PrivateKey)).value =
        .ok key := by rw [Logged.value_pure, KeyPair.requireSecret, hsecret]
    rw [Randomized.value_ofLogged_bind hrequire]
    rcases lt_or_ge s.length 32 with hshort | hlong
    · rw [Randomized.value_draw_bind_of_lt hshort]
      exact .noSalt hsecret recipient plaintext hshort
    obtain ⟨salt, left, rfl⟩ := Bytes.exists_toList_append hlong
    rw [Randomized.runFrom_draw_bind]
    rcases lt_or_ge left.length 16 with hshort | hlong
    · rw [Randomized.value_draw_bind_of_lt hshort]
      exact .noIv hsecret recipient plaintext salt hshort
    obtain ⟨iv, rest, rfl⟩ := Bytes.exists_toList_append hlong
    rw [Randomized.runFrom_draw_bind, ← List.append_assoc]
    have hbytes := PublicKey.toBytes?_toList recipient.encoded
    cases hpoint : (Extended.decode? recipient.encoded : Option (Extended FieldElement)) with
    | none =>
      have hshared := Envelope.sharedKey_of_decode_eq_none suite key hbytes hpoint salt
      rw [KeyPair.publicKey, Randomized.value_ofLogged_bind_of_error hshared]
      exact .undecodable hsecret hpoint plaintext salt iv rest
    | some p =>
      have hshared := Envelope.sharedKey_of_decode suite key hbytes hpoint salt
      rw [KeyPair.publicKey, Randomized.value_ofLogged_bind hshared]
      exact .encrypted hsecret hshared plaintext iv rest

lemma Call.draws (call : Call) : Draws suite call source (call.entry suite source).result
    (call.entry suite source).after := by
  cases call with
  | generate =>
    simp only [Call.entry, Call.perform, Randomized.value_runFrom_map]
    exact draws_generate suite source
  | encrypt sender recipient plaintext =>
    simp only [Call.entry, Call.perform, Randomized.value_runFrom_map]
    exact draws_encrypt suite source sender recipient plaintext

variable {suite source} {calls : List Call} {entry : Entry}

lemma map_call_record : (record suite source calls).map Entry.call = calls := by
  induction calls generalizing source with
  | nil => rfl
  | cons call calls ih => exact congrArg (call :: ·) ih

lemma draws_of_mem (h : entry ∈ record suite source calls) :
    Draws suite entry.call entry.before entry.result entry.after := by
  induction calls generalizing source with
  | nil => exact nomatch h
  | cons call calls ih =>
    obtain rfl | h := List.mem_cons.mp h
    · exact call.draws suite source
    · exact ih h

/-- Every call finds an end of the source. -/
lemma isSuffix_of_mem (h : entry ∈ record suite source calls) :
    entry.before.bytes <:+ source.bytes := by
  induction calls generalizing source with
  | nil => exact nomatch h
  | cons call calls ih =>
    obtain rfl | h := List.mem_cons.mp h
    · exact List.suffix_refl _
    · exact (ih h).trans (call.draws suite source).isSuffix

lemma pairwise_record : (record suite source calls).Pairwise fun earlier later =>
    later.before.bytes <:+ earlier.after.bytes := by
  induction calls generalizing source with
  | nil => exact .nil
  | cons call calls ih => exact .cons (fun _ h => isSuffix_of_mem h) ih

/-- An output ends before every later call starts. -/
lemma position_le {earlier later : Entry} {out : Output}
    (hearlier : Draws suite earlier.call earlier.before (.ok out) earlier.after)
    (hsource : earlier.before.bytes <:+ source.bytes)
    (hlater : later.before.bytes <:+ earlier.after.bytes) :
    earlier.position source + out.drawn.length ≤ later.position source := by
  have hlength := congrArg List.length hearlier.of_ok
  rw [List.length_append] at hlength
  have hle := hsource.length_le
  have hle' := hlater.length_le
  rw [Entry.position, Entry.position]
  omega

/-- Each call of a session draws the next bytes of the source, as many as its end tells. The bytes in
its output are those, and every later call starts after them. -/
theorem draws_in_order (suite : Suite) (source : Source) (calls : List Call) :
    let entries := record suite source calls
    entries.map Entry.call = calls ∧
      (∀ entry ∈ entries, entry.before.bytes = source.bytes.drop (entry.position source) ∧
        Draws suite entry.call entry.before entry.result entry.after) ∧
      (∀ entry ∈ entries, ∀ out, entry.result = .ok out →
        out.drawn = (source.bytes.drop (entry.position source)).take out.drawn.length) ∧
      entries.Pairwise fun earlier later => ∀ out, earlier.result = .ok out →
        earlier.position source + out.drawn.length ≤ later.position source := by
  intro entries
  have hbefore (entry) (h : entry ∈ entries) :
      entry.before.bytes = source.bytes.drop (entry.position source) :=
    List.suffix_iff_eq_drop.mp (isSuffix_of_mem h)
  have hdraws (entry) (h : entry ∈ entries) (out : Output) (hout : entry.result = .ok out) :
      Draws suite entry.call entry.before (.ok out) entry.after := hout ▸ draws_of_mem h
  refine ⟨map_call_record, fun entry h => ⟨hbefore entry h, draws_of_mem h⟩,
    fun entry h out hout => ?_, ?_⟩
  · rw [← hbefore entry h, (hdraws entry h out hout).of_ok, List.take_left' rfl]
  · refine pairwise_record.imp_of_mem fun {earlier} _ h _ hlater out hout => ?_
    exact position_le (hdraws earlier h out hout) (isSuffix_of_mem h) hlater

/-- Of 70 bytes, two generations take 64. An encryption without a private key takes none, and the last
generation fails. -/
theorem draws_in_order_seventy :
    let source : Source := ⟨(List.range 70).map UInt8.ofNat⟩
    let silent : KeyPair := ⟨none, Bytes.zero 32⟩
    let entries :=
      record .standard source [.generate, .encrypt silent silent [], .generate, .generate]
    entries.map (Entry.position source) = [0, 32, 32, 64] ∧
      entries.map (fun entry => entry.result.toOption.map Output.drawn) =
        [some (source.bytes.take 32), none, some ((source.bytes.drop 32).take 32), none] ∧
      ∀ entry ∈ entries, Draws .standard entry.call entry.before entry.result entry.after := by
  intro source silent entries
  refine ⟨by decide +kernel, by decide +kernel, fun entry h => ?_⟩
  exact ((draws_in_order .standard source _).2.1 entry h).2

end Session
end Edwards25519
