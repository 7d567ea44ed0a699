import AipcOs.RspBuffer

/-! gdbstub/rsp.c: the framing code. `rspFeed` consumes one USB transfer; the reference machine
consumes one byte at a time and keeps the body as a list. -/
namespace AipcOs.Rsp
open ByteMemory HexText RspWire

inductive FeedState where
  | idle
  | body
  | csum1
  | csum2
  deriving DecidableEq

/-- The statics of the framing code and the stub behind them. Two ghost fields: `bodies` collects
the dispatched commands, `overrun` records a store to g_cmd at or past CMD_SIZE. -/
structure Feed where
  state : FeedState
  cmd : Nat → Byte
  cmdLen : Nat
  sum : Word
  csumHi : Byte
  stub : Stub
  bodies : List (List Byte)
  overrun : Bool

def Feed.text (f : Feed) : List Byte := (List.range f.cmdLen).map f.cmd

/-- How a transfer ends: rsp_feed returns, a command resumes the target for good, or the loop of
the model is out of turns. -/
inductive Fed (α : Type) where
  | done (a : α)
  | left (a : α)
  | unfinished

def Fed.andThen {α : Type} (x : Fed α) (k : α → Fed α) : Fed α :=
  match x with
  | .done a => k a
  | .left a => .left a
  | .unfinished => .unfinished

def Fed.map {α β : Type} (g : α → β) : Fed α → Fed β
  | .done a => .done (g a)
  | .left a => .left (g a)
  | .unfinished => .unfinished

def Fed.ofExit (e : Exit) (f : Feed) : Fed Feed :=
  match e with
  | .returned => .done f
  | .resumed => .left f

/-- Framing outside the body. Ack, nak and break are ignored. -/
def feedByte (c : Byte) (f : Feed) : Fed Feed :=
  match f.state with
  | .idle => if c = 0x24 then .done { f with cmdLen := 0, sum := 0, state := .body } else .done f
  | .csum1 => .done { f with csumHi := c, state := .csum2 }
  | _ =>
    if (hexval f.csumHi <<< 4) ||| hexval c = f.sum &&& 0xFF then
      let (e, stub) := dispatch f.text f.stub
      .ofExit e { f with state := .idle, stub, bodies := f.bodies ++ [f.text] }
    else .done { f with state := .idle, stub := { f.stub with out := sendCh 0x2D f.stub.out } }

def Feed.push (c : Byte) (f : Feed) : Feed :=
  { f with
    cmd := Function.update f.cmd f.cmdLen c
    cmdLen := f.cmdLen + 1
    sum := f.sum + c.setWidth 32
    overrun := f.overrun || decide (CMD_SIZE ≤ f.cmdLen) }

def feedBody : List Byte → Feed → Feed × List Byte
  | [], f => (f, [])
  | c :: cs, f =>
    if c = 0x23 then (f, c :: cs)
    else if CMD_SIZE ≤ f.cmdLen then ({ f with state := .idle }, c :: cs)
    else feedBody cs (f.push c)

def feedLoop : Nat → List Byte → Feed → Fed Feed
  | _, [], f => .done f
  | 0, _ :: _, _ => .unfinished
  | fuel + 1, c :: cs, f =>
    if f.state ≠ .body then (feedByte c f).andThen (feedLoop fuel cs)
    else
      let (f, rest) := feedBody (c :: cs) f
      if f.state = .body then
        match rest with
        | [] => .done f
        | _ :: rest => feedLoop fuel rest { f with state := .csum1 }
      else feedLoop fuel rest f

def rspFeed (data : List Byte) (f : Feed) : Fed Feed := feedLoop (2 * data.length + 1) data f

def feedChunks : List (List Byte) → Feed → Fed Feed
  | [], f => .done f
  | chunk :: chunks, f => (rspFeed chunk f).andThen (feedChunks chunks)

inductive RefState where
  | idle
  | body (text : List Byte)
  | csum1 (text : List Byte)
  | csum2 (text : List Byte) (hi : Byte)

structure Ref where
  state : RefState
  stub : Stub
  bodies : List (List Byte)

def refIdle (c : Byte) (r : Ref) : Ref :=
  if c = 0x24 then { r with state := .body [] } else { r with state := .idle }

def refCheck (text : List Byte) (hi lo : Byte) (r : Ref) : Fed Ref :=
  if decode [hi, lo] = some [checksum text] then
    match dispatch text r.stub with
    | (.returned, stub) => .done ⟨.idle, stub, r.bodies ++ [text]⟩
    | (.resumed, stub) => .left ⟨.idle, stub, r.bodies ++ [text]⟩
  else .done { r with state := .idle, stub := { r.stub with out := sendCh 0x2D r.stub.out } }

/-- The reference machine. The byte after CMD_SIZE body bytes ends the packet, or drops it and is
seen outside of it. -/
def refByte (c : Byte) (r : Ref) : Fed Ref :=
  match r.state with
  | .idle => .done (refIdle c r)
  | .body text =>
    if c = 0x23 then .done { r with state := .csum1 text }
    else if text.length < CMD_SIZE then .done { r with state := .body (text ++ [c]) }
    else .done (refIdle c r)
  | .csum1 text => .done { r with state := .csum2 text c }
  | .csum2 text hi => refCheck text hi c r

def refFeed : List Byte → Ref → Fed Ref
  | [], r => .done r
  | c :: cs, r => (refByte c r).andThen (refFeed cs)

theorem Fed.andThen_assoc {α : Type} (x : Fed α) (k l : α → Fed α) :
    (x.andThen k).andThen l = x.andThen fun a => (k a).andThen l := by
  cases x <;> rfl

def feedOne (c : Byte) (f : Feed) : Fed Feed :=
  if f.state ≠ .body then feedByte c f
  else if c = 0x23 then .done { f with state := .csum1 }
  else if CMD_SIZE ≤ f.cmdLen then feedByte c { f with state := .idle }
  else .done (f.push c)

def feedBytes : List Byte → Feed → Fed Feed
  | [], f => .done f
  | c :: cs, f => (feedOne c f).andThen (feedBytes cs)

theorem feedBytes_append (xs ys : List Byte) (f : Feed) :
    feedBytes (xs ++ ys) f = (feedBytes xs f).andThen (feedBytes ys) := by
  induction xs generalizing f with
  | nil => rfl
  | cons x xs ih =>
    rw [List.cons_append, feedBytes, feedBytes, Fed.andThen_assoc, funext ih]

def afterBody (r : Feed × List Byte) : Fed Feed :=
  if r.1.state = .body then
    match r.2 with
    | [] => .done r.1
    | _ :: rest => feedBytes rest { r.1 with state := .csum1 }
  else feedBytes r.2 r.1

theorem feedBody_eq (data : List Byte) (f : Feed) (h : f.state = .body) :
    feedBytes data f = afterBody (feedBody data f) ∧ (feedBody data f).2.length ≤ data.length := by
  induction data generalizing f with
  | nil =>
    refine ⟨?_, le_rfl⟩
    rw [feedBody, afterBody, if_pos h]
    rfl
  | cons c cs ih =>
    have hnot : ¬ f.state ≠ .body := not_not.mpr h
    by_cases hc : c = 0x23
    · rw [feedBody, if_pos hc, afterBody, if_pos h, feedBytes, feedOne, if_neg hnot, if_pos hc]
      exact ⟨rfl, le_rfl⟩
    · by_cases hfull : CMD_SIZE ≤ f.cmdLen
      · rw [feedBody, if_neg hc, if_pos hfull, afterBody, feedBytes, feedOne, if_neg hnot, if_neg hc,
          if_pos hfull]
        exact ⟨rfl, le_rfl⟩
      · obtain ⟨heq, hlen⟩ := ih (f.push c) h
        rw [feedBody, if_neg hc, if_neg hfull, feedBytes, feedOne, if_neg hnot, if_neg hc,
          if_neg hfull, ← heq]
        exact ⟨rfl, hlen.trans (Nat.le_succ _)⟩

def turns (data : List Byte) (f : Feed) : Nat :=
  2 * data.length + if f.state = .body then 1 else 0

theorem turns_le (data : List Byte) (f : Feed) : turns data f ≤ 2 * data.length + 1 := by
  unfold turns
  split <;> omega

theorem feedLoop_eq (fuel : Nat) (data : List Byte) (f : Feed) (h : turns data f ≤ fuel) :
    feedLoop fuel data f = feedBytes data f := by
  induction fuel generalizing data f with
  | zero =>
    cases data with
    | nil => rfl
    | cons c cs =>
      simp only [turns, List.length_cons] at h
      omega
  | succ fuel ih =>
    cases data with
    | nil => rfl
    | cons c cs =>
      simp only [turns, List.length_cons] at h
      rw [feedLoop]
      by_cases hb : f.state = .body
      · rw [if_pos hb] at h
        rw [if_neg (not_not.mpr hb)]
        obtain ⟨heq, hlen⟩ := feedBody_eq (c :: cs) f hb
        rw [heq]
        generalize feedBody (c :: cs) f = r at hlen ⊢
        obtain ⟨g, rest⟩ := r
        simp only [List.length_cons] at hlen
        simp only [afterBody]
        split
        · cases rest with
          | nil => rfl
          | cons x rest =>
            simp only [List.length_cons] at hlen
            apply ih
            simp only [turns, reduceCtorEq, if_false]
            omega
        · rename_i hg
          apply ih
          rw [turns, if_neg hg]
          omega
      · rw [if_pos hb, feedBytes, feedOne, if_pos hb]
        cases feedByte c f with
        | done g =>
          apply ih
          have := turns_le cs g
          omega
        | left g => rfl
        | unfinished => rfl

theorem rspFeed_eq (data : List Byte) (f : Feed) : rspFeed data f = feedBytes data f :=
  feedLoop_eq _ data f (turns_le data f)

/-- The cuts do not matter. -/
theorem feedChunks_eq (chunks : List (List Byte)) (f : Feed) :
    feedChunks chunks f = feedBytes chunks.flatten f := by
  induction chunks generalizing f with
  | nil => rfl
  | cons chunk chunks ih =>
    rw [feedChunks, rspFeed_eq, List.flatten_cons, feedBytes_append]
    congr 1
    funext g
    exact ih g

def Feed.Framed (f : Feed) : Prop :=
  f.overrun = false ∧ (f.state ≠ .idle → f.cmdLen ≤ CMD_SIZE ∧ f.sum = byteSum f.text)

def Feed.view (f : Feed) : Ref :=
  { state :=
      match f.state with
      | .idle => .idle
      | .body => .body f.text
      | .csum1 => .csum1 f.text
      | .csum2 => .csum2 f.text f.csumHi
    stub := f.stub
    bodies := f.bodies }

theorem push_text (c : Byte) (f : Feed) : (f.push c).text = f.text ++ [c] := by
  have hmap : (List.range f.cmdLen).map (Function.update f.cmd f.cmdLen c) =
      (List.range f.cmdLen).map f.cmd := by
    apply List.map_congr_left
    intro i hi
    have hne : i ≠ f.cmdLen := (List.mem_range.mp hi).ne
    rw [Function.update_of_ne hne]
  simp only [Feed.text, Feed.push, List.range_succ, List.map_append, hmap, List.map_singleton,
    Function.update_self]

theorem text_length (f : Feed) : f.text.length = f.cmdLen := by simp [Feed.text]

theorem byteSum_snoc (bs : List Byte) (c : Byte) :
    byteSum (bs ++ [c]) = byteSum bs + c.setWidth 32 := by
  simp [byteSum]

theorem push_framed {c : Byte} {f : Feed} (h : f.Framed) (hb : f.state = .body)
    (hfull : ¬ CMD_SIZE ≤ f.cmdLen) : (f.push c).Framed := by
  obtain ⟨-, hsum⟩ := h.2 (by simp [hb])
  refine ⟨by simp [Feed.push, h.1, hfull], fun _ => ⟨?_, ?_⟩⟩
  · simp only [Feed.push]
    omega
  · rw [push_text, byteSum_snoc, ← hsum]
    rfl

/-- The comparison in feed_byte holds for exactly the two digits of the byte sum. -/
theorem checksum_spelled (hi lo : Byte) (text : List Byte) :
    (hexval hi <<< 4) ||| hexval lo = byteSum text &&& 0xFF ↔
      decode [hi, lo] = some [checksum text] := by
  have hlow : (byteSum text &&& 0xFF).toNat = byteTotal text % 256 := by
    rw [byteSum_eq, BitVec.toNat_and, BitVec.toNat_ofNat]
    change byteTotal text % 2 ^ 32 &&& (2 ^ 8 - 1) = _
    rw [Nat.and_two_pow_sub_one_eq_mod]
    omega
  have hbig : ∀ w : Word, 256 ≤ w.toNat → w ≠ byteSum text &&& 0xFF := by
    intro w hw heq
    obtain rfl := heq
    omega
  cases hh : value? hi with
  | none =>
    have hmax := (hexval_eq_max_iff hi).2 hh
    simp only [decode, hh, hmax, reduceCtorEq, iff_false]
    apply hbig
    rw [BitVec.toNat_or]
    exact le_trans (by decide) Nat.left_le_or
  | some x =>
    cases hl : value? lo with
    | none =>
      have hmax := (hexval_eq_max_iff lo).2 hl
      simp only [decode, hh, hl, hmax, reduceCtorEq, iff_false]
      apply hbig
      rw [BitVec.toNat_or]
      exact le_trans (by decide) Nat.right_le_or
    | some y =>
      have hx := value?_lt hh
      have hy := value?_lt hl
      rw [hexval_of_value hh, hexval_of_value hl, shift_or_digit x y hy]
      simp only [decode, hh, hl, Option.some.injEq, List.cons.injEq, and_true, checksum]
      rw [← BitVec.toNat_inj, ← BitVec.toNat_inj, hlow, BitVec.toNat_ofNat, BitVec.toNat_ofNat,
        BitVec.toNat_ofNat]
      omega

theorem ofExit_map (e : Exit) (f : Feed) (h : f.state = .idle) :
    (Fed.ofExit e f).map Feed.view = match e with
      | .returned => .done ⟨.idle, f.stub, f.bodies⟩
      | .resumed => .left ⟨.idle, f.stub, f.bodies⟩ := by
  have hview : f.view = ⟨.idle, f.stub, f.bodies⟩ := by simp [Feed.view, h]
  cases e <;> simp [Fed.ofExit, Fed.map, hview]

theorem feedByte_view (c : Byte) (f : Feed) (hf : f.Framed) (hb : f.state ≠ .body) :
    (feedByte c f).map Feed.view = refByte c f.view := by
  unfold feedByte
  split
  · rename_i hs
    have hview : f.view = ⟨.idle, f.stub, f.bodies⟩ := by simp [Feed.view, hs]
    rw [hview]
    by_cases hc : c = 0x24
    · rw [if_pos hc]
      simp [Fed.map, Feed.view, Feed.text, refByte, refIdle, hc]
    · rw [if_neg hc, Fed.map, hview]
      simp only [refByte, refIdle, if_neg hc]
  · rename_i hs
    simp [Fed.map, Feed.view, hs, refByte, Feed.text]
  · rename_i h1 h2
    have hs : f.state = .csum2 := by
      cases hstate : f.state with
      | idle => exact absurd hstate h1
      | body => exact absurd hstate hb
      | csum1 => exact absurd hstate h2
      | csum2 => rfl
    have hsum : f.sum = byteSum f.text := (hf.2 (by simp [hs])).2
    have hview : f.view = ⟨.csum2 f.text f.csumHi, f.stub, f.bodies⟩ := by simp [Feed.view, hs]
    rw [hview]
    simp only [refByte, refCheck, hsum]
    by_cases hcheck : decode [f.csumHi, c] = some [checksum f.text]
    · rw [if_pos ((checksum_spelled _ _ _).2 hcheck), if_pos hcheck, ofExit_map _ _ rfl]
      generalize dispatch f.text f.stub = r
      obtain ⟨e, stub⟩ := r
      cases e <;> rfl
    · rw [if_neg (mt (checksum_spelled _ _ _).1 hcheck), if_neg hcheck]
      rfl

def Fed.Ends {α : Type} (p : α → Prop) : Fed α → Prop
  | .done a | .left a => p a
  | .unfinished => False

theorem Fed.Ends.andThen {α : Type} {p : α → Prop} {x : Fed α} {k : α → Fed α} (hx : x.Ends p)
    (hk : ∀ a, p a → (k a).Ends p) : (x.andThen k).Ends p := by
  cases x with
  | done a => exact hk a hx
  | left a => exact hx
  | unfinished => exact hx

theorem framed_idle {f : Feed} (ho : f.overrun = false) (hs : f.state = .idle) : f.Framed :=
  ⟨ho, fun h => absurd hs h⟩

theorem feedByte_framed (c : Byte) {f : Feed} (hf : f.Framed) : (feedByte c f).Ends Feed.Framed := by
  unfold feedByte
  split
  · split
    · exact ⟨hf.1, fun _ => ⟨Nat.zero_le _, rfl⟩⟩
    · exact hf
  · rename_i hs
    exact ⟨hf.1, fun _ => hf.2 (by simp [hs])⟩
  · split
    · simp only
      cases (dispatch f.text f.stub).1 with
      | returned => exact framed_idle hf.1 rfl
      | resumed => exact framed_idle hf.1 rfl
    · exact framed_idle hf.1 rfl

theorem feedOne_framed (c : Byte) {f : Feed} (hf : f.Framed) : (feedOne c f).Ends Feed.Framed := by
  unfold feedOne
  split
  · exact feedByte_framed c hf
  · rename_i hb
    have hb : f.state = .body := not_not.mp hb
    split
    · exact ⟨hf.1, fun _ => hf.2 (by simp [hb])⟩
    · split
      · exact feedByte_framed c (framed_idle hf.1 rfl)
      · rename_i hfull
        exact push_framed hf hb hfull

theorem feedBytes_framed (cs : List Byte) {f : Feed} (hf : f.Framed) :
    (feedBytes cs f).Ends Feed.Framed := by
  induction cs generalizing f with
  | nil => exact hf
  | cons c cs ih => exact (feedOne_framed c hf).andThen fun _ hg => ih hg

theorem feedOne_view (c : Byte) {f : Feed} (hf : f.Framed) :
    (feedOne c f).map Feed.view = refByte c f.view := by
  unfold feedOne
  split
  · rename_i hb
    exact feedByte_view c f hf hb
  · rename_i hb
    have hb : f.state = .body := not_not.mp hb
    have hview : f.view = ⟨.body f.text, f.stub, f.bodies⟩ := by simp [Feed.view, hb]
    have hlen := text_length f
    rw [hview]
    split
    · rename_i hc
      simp only [refByte, if_pos hc]
      rfl
    · rename_i hc
      split
      · rename_i hfull
        have hidle := feedByte_view c { f with state := .idle } (framed_idle hf.1 rfl) (by simp)
        rw [hidle]
        simp only [refByte, if_neg hc]
        rw [if_neg (by omega)]
        rfl
      · rename_i hfull
        simp only [refByte, if_neg hc]
        rw [if_pos (by omega), ← push_text, Fed.map]
        have hpush : (f.push c).state = .body := hb
        simp only [Feed.view, hpush]
        rfl

theorem feedBytes_view (cs : List Byte) {f : Feed} (hf : f.Framed) :
    (feedBytes cs f).map Feed.view = refFeed cs f.view := by
  induction cs generalizing f with
  | nil => rfl
  | cons c cs ih =>
    have hone := feedOne_view c hf
    have hends := feedOne_framed c hf
    rw [feedBytes, refFeed, ← hone]
    cases hstep : feedOne c f with
    | done g =>
      rw [hstep] at hends
      exact ih hends
    | left g => rfl
    | unfinished => rfl

def Feed.Reachable (f : Feed) : Prop :=
  ∃ f₀ chunks, f₀.state = .idle ∧ f₀.overrun = false ∧ feedChunks chunks f₀ = .done f

theorem Feed.Reachable.framed {f : Feed} (h : f.Reachable) : f.Framed := by
  obtain ⟨f₀, chunks, hs, ho, hrun⟩ := h
  have hends := feedBytes_framed chunks.flatten (framed_idle ho hs)
  rw [← feedChunks_eq, hrun] at hends
  exact hends

theorem refFeed_body (text body rest : List Byte) (r : Ref) (hb : ∀ c ∈ body, c ≠ 0x23)
    (hlen : text.length + body.length ≤ CMD_SIZE) :
    refFeed (body ++ rest) { r with state := .body text } =
      refFeed rest { r with state := .body (text ++ body) } := by
  induction body generalizing text with
  | nil => simp
  | cons c body ih =>
    have hc := hb c List.mem_cons_self
    simp only [List.length_cons] at hlen
    have hroom : text.length < CMD_SIZE := by omega
    rw [List.cons_append, refFeed, refByte]
    simp only [if_neg hc, if_pos hroom, Fed.andThen]
    rw [ih _ (fun x hx => hb x (List.mem_cons_of_mem c hx))]
    · simp
    · simp only [List.length_append, List.length_singleton]
      omega

theorem refFeed_junk (junk rest : List Byte) (r : Ref) (hr : r.state = .idle)
    (hj : ∀ c ∈ junk, c ≠ 0x24) : refFeed (junk ++ rest) r = refFeed rest r := by
  induction junk with
  | nil => rfl
  | cons c junk ih =>
    have hc := hj c List.mem_cons_self
    have hsame : refIdle c r = r := by
      rw [refIdle, if_neg hc, ← hr]
    rw [List.cons_append, refFeed, refByte, hr]
    simp only [Fed.andThen, hsame]
    exact ih fun x hx => hj x (List.mem_cons_of_mem c hx)

/-- A complete packet, after anything without a '$'. -/
theorem refFeed_packet (junk body : List Byte) (x y : Byte) (r : Ref) (hr : r.state = .idle)
    (hj : ∀ c ∈ junk, c ≠ 0x24) (hb : ∀ c ∈ body, c ≠ 0x23) (hlen : body.length ≤ CMD_SIZE) :
    refFeed (junk ++ 0x24 :: (body ++ [0x23, x, y])) r = refCheck body x y r := by
  have hopen : refByte 0x24 r = .done { r with state := .body [] } := by
    simp [refByte, hr, refIdle]
  have hbody := refFeed_body [] body [0x23, x, y] r hb (by simpa using hlen)
  have hcheck : refCheck body x y { r with state := .csum2 body x } = refCheck body x y r := rfl
  rw [refFeed_junk _ _ _ hr hj, refFeed, hopen, Fed.andThen, hbody]
  simp only [List.nil_append, refFeed, refByte, Fed.andThen, if_true, hcheck]
  cases refCheck body x y r <;> rfl

/-- A body that goes on after CMD_SIZE bytes: the packet is dropped, the next byte is outside. -/
theorem refFeed_oversized (body : List Byte) (c : Byte) (r : Ref) (hr : r.state = .idle)
    (hb : ∀ c ∈ body, c ≠ 0x23) (hlen : body.length = CMD_SIZE) (hc : c ≠ 0x23) :
    refFeed (0x24 :: (body ++ [c])) r = refFeed [c] r := by
  have hopen : refByte 0x24 r = .done { r with state := .body [] } := by
    simp [refByte, hr, refIdle]
  have hbody := refFeed_body [] body [c] r hb (by simp [hlen])
  rw [refFeed, hopen, Fed.andThen, hbody]
  simp only [List.nil_append, refFeed, refByte, if_neg hc, hlen, lt_irrefl, if_false, hr]
  rfl

/-- Framing does not depend on how the stream is cut into transfers: state, commands and replies
are those of feeding single bytes, and those of the reference machine. That machine dispatches a
complete packet or answers '-', and drops an oversized one. The loop always ends and g_cmd is
never written past its end. -/
theorem feed_refines (f : Feed) (hf : f.Reachable) (chunks : List (List Byte)) :
    feedChunks chunks f = feedChunks (chunks.flatten.map fun c => [c]) f ∧
    (feedChunks chunks f).map Feed.view = refFeed chunks.flatten f.view ∧
    (feedChunks chunks f).Ends (fun g => g.overrun = false) ∧
    (∀ junk body x y r, r.state = .idle → (∀ c ∈ junk, c ≠ 0x24) → (∀ c ∈ body, c ≠ 0x23) →
      body.length ≤ CMD_SIZE →
      refFeed (junk ++ 0x24 :: (body ++ [0x23, x, y])) r = refCheck body x y r) ∧
    (∀ body c r, r.state = .idle → (∀ c ∈ body, c ≠ 0x23) → body.length = CMD_SIZE → c ≠ 0x23 →
      refFeed (0x24 :: (body ++ [c])) r = refFeed [c] r) := by
  have hsingle : (chunks.flatten.map fun c => [c]).flatten = chunks.flatten := by
    rw [← List.flatMap_def, List.flatMap_singleton']
  rw [feedChunks_eq, feedChunks_eq, hsingle]
  refine ⟨rfl, feedBytes_view _ hf.framed, ?_, refFeed_packet, refFeed_oversized⟩
  have hends := feedBytes_framed chunks.flatten hf.framed
  cases hfed : feedBytes chunks.flatten f with
  | done g =>
    rw [hfed] at hends
    exact hends.1
  | left g =>
    rw [hfed] at hends
    exact hends.1
  | unfinished =>
    rw [hfed] at hends
    exact hends

def idleFeed : Feed := ⟨.idle, fun _ => 0, 0, 0, 0, .idle, [], false⟩

/-- A packet cut in its body and in its checksum. -/
theorem feed_refines_cut :
    feedChunks [ascii "+$H", ascii "g0#d", ascii "f"] idleFeed =
      feedChunks ((ascii "+$Hg0#df").map fun c => [c]) idleFeed :=
  (feed_refines idleFeed ⟨idleFeed, [], rfl, rfl, rfl⟩ [ascii "+$H", ascii "g0#d", ascii "f"]).1

end AipcOs.Rsp
