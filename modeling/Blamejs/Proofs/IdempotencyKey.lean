import Blamejs.Js.JsonText
import Blamejs.Lib.Run
import Blamejs.Ref.IdempotencyKey

/-!
# One key, one answer

The capture is compared with what the response sends: chunk by chunk the two agree, except on a
byte array that is no `Buffer`, which is captured as the decimal text of its elements, and on a
callback given to `end` in the place of a chunk, which is captured as its source, and on a
`Buffer` that is changed before the end. A number or `true` for a body leaves nothing in the
fingerprint, and what `JSON.stringify` writes alike is one body to it.

The cache key and the fingerprint are texts put together, and each can be taken apart again. The
rest is an invariant of the log against the store: an entry is there as long as it has not
expired, and came from a request of its scope and key.
-/

namespace Blamejs.IdempotencyKey

open Blamejs.Js Run

/-! ## Texts put together -/

theorem scopedKey_inj {scope scope' key key' : JsString}
    (h : scopedKey scope key = scopedKey scope' key') : scope = scope' ∧ key = key' := by
  have hleaves : ∀ r : JsString, Delimiting.Leaves isDigitUnit (unit ':' :: r) := by
    intro r u hu
    obtain rfl := Option.some.inj hu
    decide
  obtain ⟨hlen, hrest⟩ := Delimiting.span_append (fun _ hu => isDigitUnit_of_mem_natText hu)
    (fun _ hu => isDigitUnit_of_mem_natText hu) (hleaves _) (hleaves _) h
  have hlength : scope.length = scope'.length := by
    rw [← digitsValue_natText scope.length, hlen, digitsValue_natText]
  obtain ⟨hscope, hkey⟩ := List.append_inj (List.cons.inj hrest).2 hlength
  exact ⟨hscope, (List.cons.inj hkey).2⟩

/-- A line is read to its end in the bytes of a text that begins with it. -/
theorem line_inj {s t : JsString} {r r' : Bytes} (hs : WellFormed s) (ht : WellFormed t)
    (hls : unit '\n' ∉ s) (hlt : unit '\n' ∉ t)
    (h : utf8 (s ++ [unit '\n']) ++ r = utf8 (t ++ [unit '\n']) ++ r') : s = t ∧ r = r' := by
  have hnl : WellFormed [unit '\n'] := by decide
  have hnone : ∀ {s t e : JsString}, unit '\n' ∉ s → s ++ [unit '\n'] = t ++ [unit '\n'] ++ e →
      e = [] := by
    intro s t e hl he
    rcases List.eq_nil_or_concat e with rfl | ⟨e', u, rfl⟩
    · rfl
    · rw [List.concat_eq_append, ← List.append_assoc] at he
      have hs' := (List.append_inj' he rfl).1
      refine absurd ?_ hl
      rw [hs']
      simp
  rcases utf8_append (wellFormed_append hs hnl) (wellFormed_append ht hnl) h with
    ⟨e, he, hr⟩ | ⟨e, he, hr⟩
  · obtain rfl := hnone hls he
    rw [List.append_nil] at he
    exact ⟨(List.append_inj' he rfl).1, hr⟩
  · obtain rfl := hnone hlt he
    rw [List.append_nil] at he
    exact ⟨(List.append_inj' he rfl).1.symm, hr⟩

theorem RequestLine.method_wellFormed (l : RequestLine) : WellFormed l.method :=
  wellFormed_of_plain fun u hu => by
    have := l.method_token u hu
    omega

theorem RequestLine.method_line (l : RequestLine) : unit '\n' ∉ l.method := fun h =>
  absurd (l.method_token _ h).1 (by decide)

theorem preimage_inj (l l' : RequestLine) {b b' : Bytes}
    (h : preimage l.method l.url b = preimage l'.method l'.url b') :
    l.method = l'.method ∧ l.url = l'.url ∧ b = b' := by
  obtain ⟨hmethod, hrest⟩ := line_inj l.method_wellFormed l'.method_wellFormed l.method_line
    l'.method_line h
  exact ⟨hmethod, line_inj l.url_wellFormed l'.url_wellFormed l.url_line l'.url_line hrest⟩

/-! ## What is captured -/

/-- Bytes that are captured as another text. -/
def Chunk.misread : Chunk → Bool
  | .byteArray bytes => bytes ≠ []
  | .buffer bytes atEnd => atEnd ≠ bytes
  | _ => false

def Ending.misread : Ending → Bool
  | .nothing => false
  | .chunk c => c.misread
  | .callback _ => true

def Act.ends : Act → Bool
  | .write _ => false
  | .finish _ => true

/-- The handler ends its response, and something it gave on the way is misread. -/
def misread : List Act → Bool
  | [] => false
  | .write c :: acts => if c.misread then acts.any Act.ends else misread acts
  | .finish e :: _ => e.misread

variable {A H : Type} {o : Opts A H}

theorem Chunk.toBuffer_eq {c : Chunk} (h : c.misread = false) : toBuffer c = c.bytes := by
  cases c with
  | text s encoding => rfl
  | buffer bytes atEnd =>
      have hsame : atEnd = bytes := by simpa [Chunk.misread] using h
      exact hsame
  | byteArray bytes =>
      have hnil : bytes = [] := by simpa [Chunk.misread] using h
      subst hnil
      rfl

/-- The bytes a falsy chunk stands for are none. -/
theorem Chunk.pushed_eq {c : Chunk} (h : c.misread = false) : c.pushed.getD [] = c.bytes := by
  have hbuffer := Chunk.toBuffer_eq h
  cases c with
  | text s encoding =>
      cases s with
      | nil => cases encoding <;> rfl
      | cons u s => exact hbuffer
  | buffer bytes atEnd => exact hbuffer
  | byteArray bytes => exact hbuffer

theorem Ending.pushed_eq {e : Ending} (h : e.misread = false) : e.pushed.getD [] = e.bytes := by
  cases e with
  | nothing => rfl
  | chunk c => exact Chunk.pushed_eq h
  | callback source => cases h

/-- What is collected is what was sent, and within the cap. -/
def Faithful (o : Opts A H) (r : Res H) : Prop :=
  r.oversized = false → r.collector = r.sent ∧ r.sent.length ≤ o.maxBodyBytes

theorem Faithful.push {r : Res H} {p : Option Bytes} {bytes : Bytes} (h : Faithful o r)
    (hcap : r.captured = false) (hp : p.getD [] = bytes) :
    Faithful o (send (pushChunk o r p) bytes) := by
  subst hp
  cases p with
  | none =>
      intro ho
      simpa [send, pushChunk, hcap] using h (by simpa [send, pushChunk, hcap] using ho)
  | some bs =>
      rw [pushChunk]
      split
      · next hover =>
          intro ho
          simp [send, hcap, hover] at ho
      · next hover =>
          obtain ⟨heq, hle⟩ := h (by simpa using hover)
          split
          · intro ho
            simp [send, hcap] at ho
          · next hfit =>
              intro _
              rw [heq] at hfit
              simp only [send, hcap, Bool.false_eq_true, if_false, heq, Option.getD_some,
                List.length_append, true_and]
              omega

@[simp] theorem pushChunk_captured (r : Res H) (p : Option Bytes) :
    (pushChunk o r p).captured = r.captured := by
  cases p with
  | none => rfl
  | some bytes =>
      rw [pushChunk]
      split
      · rfl
      · split <;> rfl

@[simp] theorem pushChunk_sent (r : Res H) (p : Option Bytes) :
    (pushChunk o r p).sent = r.sent := by
  cases p with
  | none => rfl
  | some bytes =>
      rw [pushChunk]
      split
      · rfl
      · split <;> rfl

@[simp] theorem pushChunk_stored (r : Res H) (p : Option Bytes) :
    (pushChunk o r p).stored = r.stored := by
  cases p with
  | none => rfl
  | some bytes =>
      rw [pushChunk]
      split
      · rfl
      · split <;> rfl

/-- Once `end` has been called, nothing more is sent or stored. -/
theorem acts_captured (f : H) (out : Output) (acts : List Act) {r : Res H}
    (h : r.captured = true) :
    (acts.foldl (resAct o f out) r).sent = r.sent ∧
      (acts.foldl (resAct o f out) r).stored = r.stored := by
  induction acts generalizing r with
  | nil => exact ⟨rfl, rfl⟩
  | cons a acts ih =>
      rw [List.foldl_cons]
      cases a with
      | write c =>
          have hcap : (resAct o f out r (.write c)).captured = true := by
            simp [resAct, resWrite, send, h]
          obtain ⟨hsent, hstored⟩ := ih hcap
          rw [hsent, hstored]
          simp [resAct, resWrite, send, h]
      | finish e =>
          have hsame : resAct o f out r (.finish e) = r := by simp [resAct, resEnd, h]
          rw [hsame]
          exact ih h

/-- An entry that stands for the response as it was sent. -/
structure Replica (o : Opts A H) (f : H) (out : Output) (sent : Bytes) (c : Cached H) : Prop where
  fingerprint : c.fingerprint = f
  statusCode : c.statusCode = out.status
  cacheable : cacheable out.status = true
  body : ofBase64 c.body = sent
  size : sent.length ≤ o.maxBodyBytes

theorem resEnd_stored {f : H} {out : Output} {r : Res H} {e : Ending} {c : Cached H}
    (hr : Faithful o r) (hcap : r.captured = false) (hnone : r.stored = none)
    (he : cacheable out.status = true → e.misread = false)
    (h : (resEnd o f out r e).stored = some c) :
    Replica o f out (resEnd o f out r e).sent c := by
  rw [resEnd, if_neg (by rw [hcap]; decide)] at h ⊢
  dsimp only at h ⊢
  split at h
  · next hok =>
      rw [Bool.and_eq_true, Bool.not_eq_true'] at hok
      rw [if_pos (by rw [hok.1, hok.2]; rfl)]
      obtain ⟨heq, hle⟩ := hr.push hcap (Ending.pushed_eq (he hok.2)) hok.1
      obtain rfl := Option.some.inj h
      exact ⟨rfl, rfl, hok.2, by rw [ofBase64_toBase64, heq], hle⟩
  · have hsend : (send (pushChunk o r e.pushed) e.bytes).stored = none := by
      simp [send, hcap, hnone]
    rw [hsend] at h
    cases h

theorem resEnd_captured (f : H) (out : Output) (r : Res H) (e : Ending) :
    (resEnd o f out r e).captured = true := by
  rw [resEnd]
  split
  · assumption
  · dsimp only
    split <;> rfl

/-- Nothing is stored without `end`, or of a status of another class. -/
theorem acts_open {f : H} {out : Output} (acts : List Act) {r : Res H} (hnone : r.stored = none)
    (hopen : cacheable out.status = true → acts.any Act.ends = false) :
    (acts.foldl (resAct o f out) r).stored = none := by
  induction acts generalizing r with
  | nil => exact hnone
  | cons a acts ih =>
      rw [List.foldl_cons]
      refine ih ?_ fun hok => (Bool.or_eq_false_iff.mp (hopen hok)).2
      cases a with
      | write c =>
          rw [resAct, resWrite, send]
          split
          · rw [pushChunk_stored, hnone]
          · exact (pushChunk_stored r _).trans hnone
      | finish e =>
          have hbad : cacheable out.status = false := by
            rw [Bool.eq_false_iff]
            intro hok
            cases hopen hok
          rw [resAct, resEnd]
          split
          · exact hnone
          · simp [send, hnone, hbad, apply_ite Res.stored]

/-- What is stored when all is done stands for what was sent, by then or by any later call. -/
theorem acts_stored {f : H} {out : Output} (acts : List Act) {r : Res H} {c : Cached H}
    (hr : Faithful o r) (hcap : r.captured = false) (hnone : r.stored = none)
    (hacts : cacheable out.status = true → misread acts = false)
    (h : (acts.foldl (resAct o f out) r).stored = some c) :
    Replica o f out (acts.foldl (resAct o f out) r).sent c := by
  induction acts generalizing r with
  | nil =>
      rw [List.foldl_nil, hnone] at h
      cases h
  | cons a acts ih =>
      rw [List.foldl_cons] at h ⊢
      cases a with
      | write ch =>
          have hcap' : (resAct o f out r (.write ch)).captured = false := by
            simp [resAct, resWrite, send, hcap]
          have hnone' : (resAct o f out r (.write ch)).stored = none := by
            simp [resAct, resWrite, send, hcap, hnone]
          cases hodd : ch.misread with
          | true =>
              have hlast := acts_open (o := o) (f := f) acts hnone' fun hok => by
                simpa [misread, hodd] using hacts hok
              rw [hlast] at h
              cases h
          | false =>
              refine ih (hr.push hcap (Chunk.pushed_eq hodd)) hcap' hnone' ?_ h
              intro hok
              simpa [misread, hodd] using hacts hok
      | finish e =>
          have hend := resEnd_captured (o := o) f out r e
          obtain ⟨hsent, hstored⟩ := acts_captured (o := o) f out acts hend
          rw [resAct, hstored] at h
          rw [resAct, hsent]
          exact resEnd_stored hr hcap hnone hacts h

theorem acts_sent (f : H) (out : Output) (acts : List Act) {r : Res H}
    (hcap : r.captured = false) :
    (acts.foldl (resAct o f out) r).sent = sentPlain r.sent acts := by
  induction acts generalizing r with
  | nil => rfl
  | cons a acts ih =>
      rw [List.foldl_cons]
      cases a with
      | write c =>
          rw [ih (by simp [resAct, resWrite, send, hcap])]
          simp [resAct, resWrite, send, hcap, sentPlain]
      | finish e =>
          have hend := resEnd_captured (o := o) f out r e
          have hlast := (acts_captured (o := o) f out acts hend).1
          rw [resAct, hlast, resEnd, hcap, if_neg (by decide)]
          simp [send, hcap, sentPlain, apply_ite Res.sent]

/-- The wrapped writers send what the bare ones would. -/
theorem runHandler_sent (o : Opts A H) (f : H) (out : Output) :
    (runHandler o f out).sent = sentPlain [] out.acts := acts_sent f out out.acts rfl

theorem faithful_fresh : Faithful o (.fresh H) := fun _ => ⟨rfl, Nat.zero_le _⟩

/-! ## Requests -/

/-- What a request brings: what the hook makes of it, or its body. -/
inductive Received where
  | hook (bytes : Option Bytes)
  | body (b : Option Body)
  deriving DecidableEq

def received (o : Opts A H) (req : Req A) : Received :=
  match o.bodyFingerprintFn with
  | some fn => .hook (fn req)
  | none => .body (carried req)

/-- What goes into the fingerprint. -/
def Received.bytes : Received → Bytes
  | .hook bytes => bytes.getD []
  | .body b => (b.bind Body.bytes).getD []

/-- What a request that gets as far as the cache asks for. -/
structure Asked where
  scope : JsString
  key : JsString
  method : JsString
  url : JsString
  body : Received
  deriving DecidableEq

def asked (o : Opts A H) (req : Req A) : Option Asked :=
  match admission o req with
  | .asks scope key _ => some ⟨scope, key, req.method, req.url, received o req⟩
  | _ => none

theorem bodyBytes_received (req : Req A) :
    (bodyBytes o req).getD [] = (received o req).bytes := by
  rw [bodyBytes, received]
  cases o.bodyFingerprintFn with
  | some fn => rfl
  | none => rfl

theorem admission_asks {req : Req A} {scope key : JsString} {bytes : Option Bytes}
    (h : admission o req = .asks scope key bytes) : bytes = bodyBytes o req := by
  rw [admission] at h
  dsimp only at h
  split at h
  · cases h
  · split at h
    · split at h <;> cases h
    · split at h
      · split at h
        · cases h
        · split at h
          · cases h
          · cases h
            rfl
      · cases h

/-! ## The claim on a log -/

def Asked.entry (a : Asked) : JsString := scopedKey a.scope a.key

/-- A later request against an earlier one whose response is stored: the response again for the
same request, a refusal for another one under the same key. -/
def Follows (o : Opts A H) (earlier later : Served A H) : Prop :=
  ∀ a b c, asked o earlier.call.req = some a → asked o later.call.req = some b →
    earlier.stored = some c → later.call.arrives ≤ earlier.call.done + o.ttlMs →
    b.scope = a.scope → b.key = a.key →
    (b = a → ∃ body, earlier.answer = .handled c.statusCode body ∧
      later.answer = .replayed c.statusCode c.headers body) ∧
    (b ≠ a → later.answer = .problem (mismatch o))

/-- The response of a request is stored, in time for another of its scope and key. -/
structure Answers (o : Opts A H) (log : List (Served A H)) (later : Served A H) (b : Asked)
    (earlier : Served A H) (a : Asked) : Prop where
  mem : earlier ∈ log
  asked : asked o earlier.call.req = some a
  scope : a.scope = b.scope
  key : a.key = b.key
  inTime : later.call.arrives ≤ earlier.call.done + o.ttlMs

/-- What is replayed was sent before, for the same request, by a handler that gave it a status
from 200 to 499 and no more bytes than the cap; what is refused as another request follows one
with its scope and key. -/
def Sourced (o : Opts A H) (log : List (Served A H)) (s : Served A H) : Prop :=
  (∀ status headers body, s.answer = .replayed status headers body →
    ∃ b i, asked o s.call.req = some b ∧ Answers o log s b i b ∧
      i.answer = .handled status body ∧ 200 ≤ status ∧ status < 500 ∧
      (sentPlain [] i.call.out.acts).length ≤ o.maxBodyBytes) ∧
  (s.answer = .problem (mismatch o) →
    ∃ b i a, asked o s.call.req = some b ∧ Answers o log s b i a ∧ a ≠ b)

/-- Of a log, the newest first. -/
def Keeps (o : Opts A H) : List (Served A H) → Prop
  | [] => True
  | s :: log => (∀ i ∈ log, Follows o i s) ∧ Sourced o log s ∧ Keeps o log

/-! ## One request -/

theorem get_some {now : Nat} {data data' : Data H} {k : JsString} {c : Cached H}
    (h : get now data k = (some c, data')) :
    data' = data ∧ ∃ e, data.lookup k = some e ∧ e.value = c ∧ now ≤ e.expiresAt := by
  unfold get at h
  split at h
  · cases h
  · next e he =>
      split at h
      · cases h
      · next hlive =>
          cases h
          exact ⟨rfl, e, he, rfl, Nat.le_of_not_lt hlive⟩

theorem get_none {now : Nat} {data data' : Data H} {k : JsString}
    (h : get now data k = (none, data')) :
    (∀ e, data.lookup k = some e → e.expiresAt < now) ∧
      ∀ k', data'.lookup k' = if k' = k then none else data.lookup k' := by
  unfold get at h
  split at h
  · next hnone =>
      cases h
      refine ⟨fun e he => absurd (hnone.symm.trans he) nofun, fun k' => ?_⟩
      split
      · next hk => rw [hk, hnone]
      · rfl
  · next e he =>
      split at h
      · next hpast =>
          cases h
          refine ⟨fun e' he' => ?_, fun k' => Expiry.lookup_erase⟩
          rw [he] at he'
          cases he'
          exact hpast
      · cases h

theorem admission_refused {req : Req A} {p : Problem} (h : admission o req = .refused p) :
    p.status = 400 := by
  rw [admission] at h
  dsimp only at h
  split at h
  · cases h
  · split at h
    · split at h
      · cases h
        rfl
      · cases h
    · split at h
      · split at h
        · cases h
          rfl
        · split at h
          · cases h
            rfl
          · cases h
      · cases h
        rfl

def Asked.fingerprint (o : Opts A H) (a : Asked) : H :=
  o.hash (preimage a.method a.url a.body.bytes)

/-- An entry that stands for the answer to a request. -/
structure Kept (o : Opts A H) (s : Served A H) (a : Asked) (c : Cached H) : Prop where
  asked : asked o s.call.req = some a
  answer : s.answer = .handled c.statusCode (onWire a.method c.statusCode (ofBase64 c.body))
  fingerprint : c.fingerprint = a.fingerprint o
  status : 200 ≤ c.statusCode ∧ c.statusCode < 500
  size : (sentPlain [] s.call.out.acts).length ≤ o.maxBodyBytes

/-- How a request is served, and what it leaves in the store. -/
inductive Way (o : Opts A H) (data : Data H) (s : Served A H) (data' : Data H) : Prop
  | aside (hasked : asked o s.call.req = none) (hstored : s.stored = none) (hdata : data' = data)
      (hanswer : (∃ status body, s.answer = .handled status body) ∨
        ∃ p, s.answer = .problem p ∧ p.status = 400)
  | found (b : Asked) (e : Entry H) (hasked : asked o s.call.req = some b)
      (he : data.lookup b.entry = some e) (hlive : s.call.arrives ≤ e.expiresAt)
      (hstored : s.stored = none) (hdata : data' = data)
      (hsame : e.value.fingerprint = b.fingerprint o →
        s.answer = .replayed e.value.statusCode e.value.headers
          (onWire b.method e.value.statusCode (ofBase64 e.value.body)))
      (hother : e.value.fingerprint ≠ b.fingerprint o → s.answer = .problem (mismatch o))
  | ran (b : Asked) (hasked : asked o s.call.req = some b)
      (hpast : ∀ e, data.lookup b.entry = some e → e.expiresAt < s.call.arrives)
      (hanswer : ∃ status body, s.answer = .handled status body)
      (hkept : ∀ c, s.stored = some c → Kept o s b c)
      (hdata : ∀ k, data'.lookup k = if k = b.entry then
        s.stored.map fun c => ⟨c, s.call.done + o.ttlMs⟩ else data.lookup k)

/-- Two bodies that go into the fingerprint alike are the same. -/
def Told (o : Opts A H) (log : List (Served A H)) (c : Call A) : Prop :=
  ∀ i ∈ log, ∀ a b, asked o i.call.req = some a → asked o c.req = some b → b.scope = a.scope →
    b.key = a.key → a.body.bytes = b.body.bytes → b.body = a.body

/-- Nothing that is stored was misread, and the body is told from those before. -/
def Regular (o : Opts A H) (s : St A H) (c : Call A) : Prop :=
  Told o s.log c ∧ (cacheable c.out.status = true → misread c.out.acts = false)

theorem serve_way [DecidableEq H] {data data' : Data H} {c : Call A} {s : Served A H}
    (hok : cacheable c.out.status = true → misread c.out.acts = false)
    (h : serve o data c = (s, data')) : s.call = c ∧ Way o data s data' := by
  unfold serve at h
  split at h
  · next hadmit =>
      cases h
      exact ⟨rfl, .aside (by rw [asked, hadmit]) rfl rfl (.inl ⟨_, _, rfl⟩)⟩
  · next p hadmit =>
      cases h
      exact ⟨rfl, .aside (by rw [asked, hadmit]) rfl rfl (.inr ⟨p, rfl, admission_refused hadmit⟩)⟩
  · next scope key bytes hadmit =>
      have hasked : asked o c.req = some ⟨scope, key, c.req.method, c.req.url,
          received o c.req⟩ := by rw [asked, hadmit]
      have hprint : fingerprintRequest o c.req bytes = Asked.fingerprint o
          ⟨scope, key, c.req.method, c.req.url, received o c.req⟩ := by
        rw [fingerprintRequest, admission_asks hadmit, bodyBytes_received]
        rfl
      dsimp only at h
      rw [hprint] at h
      split at h
      · next cached data₁ hget =>
          obtain ⟨rfl, e, he, rfl, hlive⟩ := get_some hget
          split at h
          · next hne =>
              cases h
              exact ⟨rfl, .found _ e hasked he hlive rfl rfl (fun heq => absurd heq hne)
                fun _ => rfl⟩
          · next heq =>
              cases h
              exact ⟨rfl, .found _ e hasked he hlive rfl rfl (fun _ => rfl)
                fun hne => absurd hne heq⟩
      · next data₁ hget =>
          obtain ⟨hpast, hlookup⟩ := get_none hget
          cases h
          refine ⟨rfl, .ran _ hasked hpast ⟨_, _, rfl⟩ ?_ ?_⟩
          · intro cached hstored
            have hrep := acts_stored c.out.acts faithful_fresh rfl rfl hok hstored
            have hsent := hrep.body
            refine ⟨hasked, ?_, hrep.fingerprint, ?_, ?_⟩
            · rw [hrep.statusCode, hsent]
              rfl
            · rw [hrep.statusCode]
              have hclass := hrep.cacheable
              rw [cacheable, Bool.and_eq_true, decide_eq_true_eq, decide_eq_true_eq] at hclass
              exact hclass
            · have hsize := hrep.size
              rwa [← runHandler, runHandler_sent] at hsize
          · intro k
            dsimp only
            split
            · next cached hstored =>
                rw [hstored, Option.map_some, set, Expiry.lookup_insert, hlookup]
                split
                · next hk => exact (if_pos hk).symm
                · next hk => exact (if_neg hk).symm
            · next hstored =>
                rw [hstored, Option.map_none, hlookup]
                rfl

/-! ## The store and the log -/

theorem entry_inj {a b : Asked} (h : a.entry = b.entry) : a.scope = b.scope ∧ a.key = b.key :=
  scopedKey_inj h

theorem entry_congr {a b : Asked} (hscope : b.scope = a.scope) (hkey : b.key = a.key) :
    b.entry = a.entry := by rw [Asked.entry, hscope, hkey, Asked.entry]

/-- The fingerprints of two requests of one scope and key tell them apart. -/
theorem eq_of_fingerprint (hhash : Function.Injective o.hash) {r r' : Req A} {a b : Asked}
    (ha : asked o r = some a) (hb : asked o r' = some b) (hscope : b.scope = a.scope)
    (hkey : b.key = a.key) (htold : a.body.bytes = b.body.bytes → b.body = a.body)
    (h : a.fingerprint o = b.fingerprint o) : b = a := by
  have hline : ∀ {r : Req A} {a : Asked}, asked o r = some a → a.method = r.method ∧
      a.url = r.url := by
    intro r a ha
    rw [asked] at ha
    split at ha
    · obtain rfl := Option.some.inj ha
      exact ⟨rfl, rfl⟩
    · cases ha
  obtain ⟨hmethod, hurl⟩ := hline ha
  obtain ⟨hmethod', hurl'⟩ := hline hb
  have hpre := hhash h
  rw [hmethod, hurl, hmethod', hurl'] at hpre
  obtain ⟨hm, hu, hbody⟩ := preimage_inj r.toRequestLine r'.toRequestLine hpre
  rw [← hmethod, ← hmethod'] at hm
  rw [← hurl, ← hurl'] at hu
  have hbody := htold hbody
  cases a
  cases b
  simp_all

structure Inv (o : Opts A H) (s : St A H) : Prop where
  keeps : Keeps o s.log
  kept : ∀ i ∈ s.log, ∀ c, i.stored = some c → ∃ a, Kept o i a c
  /-- An entry comes from a request under its key. -/
  source : ∀ k e, s.data.lookup k = some e → ∃ i ∈ s.log, ∃ a, Kept o i a e.value ∧
    k = a.entry ∧ e.expiresAt = i.call.done + o.ttlMs ∧ i.stored = some e.value
  /-- An entry that has not expired is there. -/
  present : ∀ i ∈ s.log, ∀ a c, asked o i.call.req = some a → i.stored = some c →
    s.now ≤ i.call.done + o.ttlMs →
    s.data.lookup a.entry = some ⟨c, i.call.done + o.ttlMs⟩

theorem Inv.init : Inv o (St.init A H) where
  keeps := trivial
  kept := fun _ hi => absurd hi List.not_mem_nil
  source := by
    intro k e he
    rw [St.init, AList.lookup_empty] at he
    cases he
  present := fun _ hi => absurd hi List.not_mem_nil

theorem Way.follows (hhash : Function.Injective o.hash) {s : St A H} {v : Served A H}
    {data' : Data H} (hI : Inv o s) (htold : Told o s.log v.call) (hnow : s.now ≤ v.call.arrives)
    (hway : Way o s.data v data') {i : Served A H} (hi : i ∈ s.log) : Follows o i v := by
  intro a b c ha hb hstored htime hscope hkey
  have hpresent := hI.present i hi a c ha hstored (le_trans hnow htime)
  rw [← entry_congr hscope hkey] at hpresent
  obtain ⟨a', hkept⟩ := hI.kept i hi c hstored
  obtain rfl := Option.some.inj (ha.symm.trans hkept.asked)
  cases hway with
  | aside hasked _ _ _ => exact absurd (hasked.symm.trans hb) nofun
  | found b' e hasked he _ _ _ hsame hother =>
      obtain rfl := Option.some.inj (hb.symm.trans hasked)
      obtain rfl := Option.some.inj (hpresent.symm.trans he)
      constructor
      · rintro rfl
        exact ⟨_, hkept.answer, hsame hkept.fingerprint⟩
      · intro hne
        refine hother fun heq => hne (eq_of_fingerprint hhash ha hb hscope hkey
          (htold i hi a b ha hb hscope hkey) ?_)
        rw [← hkept.fingerprint, heq]
  | ran b' hasked hpast _ _ _ =>
      obtain rfl := Option.some.inj (hb.symm.trans hasked)
      exact absurd (hpast _ hpresent) (Nat.not_lt.mpr htime)

theorem Way.sourced (hhash : Function.Injective o.hash) {s : St A H} {v : Served A H}
    {data' : Data H} (hI : Inv o s) (htold : Told o s.log v.call) (hway : Way o s.data v data') :
    Sourced o s.log v := by
  cases hway with
  | aside _ _ _ hanswer =>
      rcases hanswer with ⟨status, body, hanswer⟩ | ⟨p, hanswer, hp⟩
      · exact ⟨fun _ _ _ h => absurd (hanswer.symm.trans h) nofun,
          fun h => absurd (hanswer.symm.trans h) nofun⟩
      · refine ⟨fun _ _ _ h => absurd (hanswer.symm.trans h) nofun, fun h => ?_⟩
        obtain rfl := Answer.problem.inj (hanswer.symm.trans h)
        cases hp
  | found b e hasked he hlive _ _ hsame hother =>
      obtain ⟨i, hi, a, hkept, hentry, hexpires, _⟩ := hI.source _ _ he
      obtain ⟨hscope, hkey⟩ := entry_inj hentry
      rw [hexpires] at hlive
      have hanswers : Answers o s.log v b i a :=
        ⟨hi, hkept.asked, hscope.symm, hkey.symm, hlive⟩
      by_cases heq : e.value.fingerprint = b.fingerprint o
      · have hanswer := hsame heq
        refine ⟨fun status headers body h => ?_, fun h => absurd (hanswer.symm.trans h) nofun⟩
        rw [hanswer] at h
        obtain ⟨rfl, rfl, rfl⟩ := Answer.replayed.inj h
        have hba : b = a := eq_of_fingerprint hhash hkept.asked hasked hscope hkey
          (htold i hi a b hkept.asked hasked hscope hkey) (hkept.fingerprint.symm.trans heq)
        subst hba
        exact ⟨b, i, hasked, hanswers, hkept.answer, hkept.status.1, hkept.status.2, hkept.size⟩
      · have hanswer := hother heq
        refine ⟨fun _ _ _ h => absurd (hanswer.symm.trans h) nofun, fun _ => ?_⟩
        refine ⟨b, i, a, hasked, hanswers, ?_⟩
        rintro rfl
        exact heq hkept.fingerprint
  | ran _ _ _ hanswer _ _ =>
      obtain ⟨status, body, hanswer⟩ := hanswer
      exact ⟨fun _ _ _ h => absurd (hanswer.symm.trans h) nofun,
        fun h => absurd (hanswer.symm.trans h) nofun⟩

/-- A way that stores nothing and deletes nothing. -/
theorem Inv.unchanged {s : St A H} {v : Served A H} (hI : Inv o s) (hnow : s.now ≤ v.call.arrives)
    (hdone : v.call.arrives ≤ v.call.done) (hkeeps : Keeps o (v :: s.log))
    (hstored : v.stored = none) : Inv o ⟨v.call.done, s.data, v :: s.log⟩ where
  keeps := hkeeps
  kept := by
    intro i hi c hc
    rcases List.mem_cons.mp hi with rfl | hi
    · exact absurd (hstored.symm.trans hc) nofun
    · exact hI.kept i hi c hc
  source := by
    intro k e he
    obtain ⟨i, hi, hrest⟩ := hI.source k e he
    exact ⟨i, List.mem_cons_of_mem _ hi, hrest⟩
  present := by
    intro i hi a c ha hc hle
    rcases List.mem_cons.mp hi with rfl | hi
    · exact absurd (hstored.symm.trans hc) nofun
    · exact hI.present i hi a c ha hc (le_trans hnow (le_trans hdone hle))

theorem Inv.ran {s : St A H} {v : Served A H} {data' : Data H} {b : Asked} (hI : Inv o s)
    (hnow : s.now ≤ v.call.arrives) (hdone : v.call.arrives ≤ v.call.done)
    (hkeeps : Keeps o (v :: s.log)) (hasked : asked o v.call.req = some b)
    (hpast : ∀ e, s.data.lookup b.entry = some e → e.expiresAt < v.call.arrives)
    (hkept : ∀ c, v.stored = some c → Kept o v b c)
    (hdata : ∀ k, data'.lookup k = if k = b.entry then
      v.stored.map fun c => ⟨c, v.call.done + o.ttlMs⟩ else s.data.lookup k) :
    Inv o ⟨v.call.done, data', v :: s.log⟩ where
  keeps := hkeeps
  kept := by
    intro i hi c hc
    rcases List.mem_cons.mp hi with rfl | hi
    · exact ⟨b, hkept c hc⟩
    · exact hI.kept i hi c hc
  source := by
    intro k e he
    rw [hdata] at he
    split at he
    · next hk =>
        obtain ⟨c, hc, rfl⟩ := Option.map_eq_some_iff.mp he
        exact ⟨v, List.mem_cons_self, b, hkept c hc, hk, rfl, hc⟩
    · obtain ⟨i, hi, hrest⟩ := hI.source k e he
      exact ⟨i, List.mem_cons_of_mem _ hi, hrest⟩
  present := by
    intro i hi a c ha hc hle
    rw [hdata]
    rcases List.mem_cons.mp hi with rfl | hi
    · obtain rfl := Option.some.inj (ha.symm.trans hasked)
      rw [if_pos rfl, hc]
      rfl
    · have hold := hI.present i hi a c ha hc (le_trans hnow (le_trans hdone hle))
      rw [if_neg]
      · exact hold
      · intro hentry
        rw [hentry] at hold
        exact absurd (hpast _ hold) (Nat.not_lt.mpr (le_trans hdone hle))

theorem step_inv [DecidableEq H] {s s' : St A H} {c : Call A} (h : step o s c = some s') :
    s.now ≤ c.arrives ∧ c.arrives ≤ c.done ∧
      ∃ v data', serve o s.data c = (v, data') ∧ s' = ⟨c.done, data', v :: s.log⟩ := by
  rw [step] at h
  split at h
  · next hclock => exact ⟨hclock.1, hclock.2, _, _, rfl, (Option.some.inj h).symm⟩
  · cases h

theorem Inv.step [DecidableEq H] (hhash : Function.Injective o.hash) {s s' : St A H} {c : Call A}
    (hI : Inv o s) (hok : Regular o s c) (h : step o s c = some s') : Inv o s' := by
  obtain ⟨hnow, hdone, v, data', hserve, rfl⟩ := step_inv h
  obtain ⟨rfl, hway⟩ := serve_way hok.2 hserve
  have hkeeps : Keeps o (v :: s.log) :=
    ⟨fun i hi => hway.follows hhash hI hok.1 hnow hi, hway.sourced hhash hI hok.1, hI.keeps⟩
  cases hway with
  | aside _ hstored hdata _ =>
      subst hdata
      exact hI.unchanged hnow hdone hkeeps hstored
  | found _ _ _ _ _ hstored hdata _ _ =>
      subst hdata
      exact hI.unchanged hnow hdone hkeeps hstored
  | ran b hasked hpast _ hkept hdata =>
      exact hI.ran hnow hdone hkeeps hasked hpast hkept hdata

/-! ## Runs -/

def sampleOpts : Opts Unit Bytes where
  ttlMs := 1000
  methods := [units "POST"]
  requireKey := true
  scopeFn := fun _ => some (units "u:1")
  bodyFingerprintFn := none
  deny := true
  maxBodyBytes := 16
  hash := id
  base := ""

def samplePost (body : Bytes) : Req Unit where
  method := units "POST"
  url := units "/pay"
  method_ne := by decide
  method_token := List.all_eq_true.mp (by decide : (units "POST").all
    fun u => 0x21 ≤ u.toNat && u.toNat ≤ 0x7E) |> fun h u hu => by simpa using h u hu
  url_ne := by decide
  url_line := by decide
  url_wellFormed := by decide
  keyHeader := [units "k1"]
  rawBody := none
  body := some (.buffer body)
  actor := ()

/-- A text in two parts, and no chunk at the end. -/
def sampleText : Output := ⟨201, [], [.write (.text (units "o") .utf8),
  .write (.text (units "aw==") .base64), .finish .nothing]⟩

/-- Every body that is carried is a `Buffer`: the bytes tell them apart. -/
theorem samplePost_told {log : List (Served Unit Bytes)}
    (hlog : ∀ i ∈ log, ∃ b, i.call.req = samplePost b) {c : Call Unit} {b : Bytes}
    (hc : c.req = samplePost b) : Told sampleOpts log c := by
  have hasked : ∀ b, asked sampleOpts (samplePost b) =
      some ⟨units "u:1", units "k1", units "POST", units "/pay", .body (some (.buffer b))⟩ := by
    intro b
    rfl
  intro i hi a d ha hd _ _ hbytes
  obtain ⟨b', hb'⟩ := hlog i hi
  rw [hb', hasked] at ha
  rw [hc, hasked] at hd
  cases ha
  cases hd
  have heq : b' = b := hbytes
  rw [heq]

/-- The byte 7, in an array that is no `Buffer`. -/
def sampleBytes : Output := ⟨200, [], [.finish (.chunk (.byteArray [7]))]⟩

end Blamejs.IdempotencyKey
