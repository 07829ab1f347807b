import Mathlib.Data.List.Basic
import Mathlib.Data.Char
import Mathlib.Tactic.Common

/-! # UTF-8 in pieces

The decoder of the Encoding Standard, which replaces what is no character by U+FFFD: a bad byte, and a
character that is broken off, by a byte that does not continue it or by the end. A text that is cut
into pieces of bytes and decoded piece by piece comes out frayed: each character that a cut goes
through becomes two replacements or more (`frayed_decodeAll`). -/

namespace BrainEngine.Lib.Utf8

/-- A character that is not complete: how many bytes it needs, the bounds of the next one, and the
bits so far. -/
structure Pending where
  need : ℕ
  lower : ℕ
  upper : ℕ
  code : ℕ
  deriving DecidableEq

/-- Between characters. -/
def idle : Pending := ⟨0, 0x80, 0xBF, 0⟩

/-- What stands for what is no character. -/
def replacement : Char := '\uFFFD'

/-- The first byte of a character of several bytes. -/
def lead (b : ℕ) : Option Pending :=
  if 0xC2 ≤ b ∧ b ≤ 0xDF then some ⟨1, 0x80, 0xBF, b % 32⟩
  else if 0xE0 ≤ b ∧ b ≤ 0xEF then
    some ⟨2, if b = 0xE0 then 0xA0 else 0x80, if b = 0xED then 0x9F else 0xBF, b % 16⟩
  else if 0xF0 ≤ b ∧ b ≤ 0xF4 then
    some ⟨3, if b = 0xF0 then 0x90 else 0x80, if b = 0xF4 then 0x8F else 0xBF, b % 8⟩
  else none

/-- A byte between characters. -/
def fresh (b : ℕ) : List Char × Pending :=
  if b < 0x80 then ([Char.ofNat b], idle)
  else match lead b with
    | some p => ([], p)
    | none => ([replacement], idle)

/-- One byte. -/
def feed (p : Pending) (b : ℕ) : List Char × Pending :=
  if p.need = 0 then fresh b
  else if p.lower ≤ b ∧ b ≤ p.upper then
    let code := p.code * 64 + b % 64
    if p.need = 1 then ([Char.ofNat code], idle) else ([], ⟨p.need - 1, 0x80, 0xBF, code⟩)
  else (replacement :: (fresh b).1, (fresh b).2)

/-- The bytes to the end. -/
def decodeFrom : Pending → List UInt8 → List Char
  | p, [] => if p.need = 0 then [] else [replacement]
  | p, b :: bs => (feed p b.toNat).1 ++ decodeFrom (feed p b.toNat).2 bs

/-- The text of some bytes. -/
def decode (bs : List UInt8) : List Char := decodeFrom idle bs

/-- The bytes of a text. -/
def encode (t : List Char) : List UInt8 := t.flatMap String.utf8EncodeChar

/-- Pieces of bytes, decoded one by one. -/
def decodeAll (pieces : List (List UInt8)) : List Char := pieces.flatMap decode

/-- A byte that continues a character. -/
def isCont (b : UInt8) : Prop := 0x80 ≤ b.toNat ∧ b.toNat < 0xC0

@[simp] theorem encode_nil : encode [] = [] := rfl

@[simp] theorem encode_cons (c : Char) (t : List Char) :
    encode (c :: t) = String.utf8EncodeChar c ++ encode t := List.flatMap_cons

@[simp] theorem encode_append (t u : List Char) : encode (t ++ u) = encode t ++ encode u :=
  List.flatMap_append

@[simp] theorem decodeAll_cons (x : List UInt8) (xs : List (List UInt8)) :
    decodeAll (x :: xs) = decode x ++ decodeAll xs := List.flatMap_cons

/-! ### One character -/

/-- The bytes lead the decoder from `p` to the character, and to nothing before their end. -/
inductive Chain : Pending → List UInt8 → Char → Prop
  | last {p : Pending} {b : UInt8} {c : Char} (h : feed p b.toNat = ([c], idle)) : Chain p [b] c
  | more {p q : Pending} {b : UInt8} {bs : List UInt8} {c : Char} (h : feed p b.toNat = ([], q))
    (hq : q.need ≠ 0) (hbs : Chain q bs c) : Chain p (b :: bs) c

theorem feed_cont {p : Pending} {b : ℕ} (hp : p.need ≠ 0) (h : p.lower ≤ b) (h' : b ≤ p.upper) :
    feed p b = if p.need = 1 then ([Char.ofNat (p.code * 64 + b % 64)], idle)
      else ([], ⟨p.need - 1, 0x80, 0xBF, p.code * 64 + b % 64⟩) := by
  unfold feed
  rw [if_neg hp, if_pos ⟨h, h'⟩]

theorem feed_idle (b : ℕ) : feed idle b = fresh b := if_pos rfl

theorem feed_lead {b : ℕ} {p : Pending} (h : lead b = some p) : feed idle b = ([], p) := by
  have hb : ¬b < 0x80 := by
    intro hlt
    unfold lead at h
    rw [if_neg (by omega), if_neg (by omega), if_neg (by omega)] at h
    cases h
  rw [feed_idle]
  unfold fresh
  rw [if_neg hb, h]

theorem toNat_ofNat {n : ℕ} (h : n < 256) : (UInt8.ofNat n).toNat = n := by
  rw [UInt8.toNat_ofNat']
  exact Nat.mod_eq_of_lt h

section
variable {l u code k v b : ℕ}

/-- The last byte of a character. -/
theorem feed_last (h : l ≤ b) (h' : b ≤ u) (hv : v = code * 64 + b % 64) :
    feed ⟨1, l, u, code⟩ b = ([Char.ofNat v], idle) := by
  rw [feed_cont (by simp) h h', if_pos rfl, hv]

/-- A byte before the last one. -/
theorem feed_mid (h : l ≤ b) (h' : b ≤ u) (hv : v = code * 64 + b % 64) :
    feed ⟨k + 2, l, u, code⟩ b = ([], ⟨k + 1, 0x80, 0xBF, v⟩) := by
  rw [feed_cont (by simp) h h', if_neg (by simp), hv]
  rfl

/-- The last byte, the last two and the last three. -/
theorem chain_last (v : ℕ) :
    Chain ⟨1, 0x80, 0xBF, v / 64⟩ [UInt8.ofNat (v % 0x40 + 0x80)] (Char.ofNat v) := by
  refine .last ?_
  rw [toNat_ofNat (by omega)]
  exact feed_last (by omega) (by omega) (by omega)

theorem chain_last_two (h : l ≤ v / 64 % 0x40 + 0x80) (h' : v / 64 % 0x40 + 0x80 ≤ u) :
    Chain ⟨2, l, u, v / 4096⟩
      [UInt8.ofNat (v / 64 % 0x40 + 0x80), UInt8.ofNat (v % 0x40 + 0x80)] (Char.ofNat v) := by
  refine .more ?_ (by simp) (chain_last v)
  rw [toNat_ofNat (by omega)]
  exact feed_mid h h' (by omega)

theorem chain_last_three (h : l ≤ v / 4096 % 0x40 + 0x80) (h' : v / 4096 % 0x40 + 0x80 ≤ u) :
    Chain ⟨3, l, u, v / 262144⟩ [UInt8.ofNat (v / 4096 % 0x40 + 0x80),
      UInt8.ofNat (v / 64 % 0x40 + 0x80), UInt8.ofNat (v % 0x40 + 0x80)] (Char.ofNat v) := by
  refine .more ?_ (by simp) (chain_last_two (l := 0x80) (u := 0xBF) (by omega) (by omega))
  rw [toNat_ofNat (by omega)]
  exact feed_mid h h' (by omega)

/-! The first byte, for two, three and four. -/

theorem feed_lead_two (h : 2 ≤ v / 64) (h' : v / 64 < 32) :
    feed idle (UInt8.ofNat (v / 64 % 0x20 + 0xC0)).toNat = ([], ⟨1, 0x80, 0xBF, v / 64⟩) := by
  rw [toNat_ofNat (by omega)]
  refine feed_lead ?_
  unfold lead
  rw [if_pos (by omega)]
  congr 2
  omega

theorem feed_lead_three (h : v / 4096 < 16) :
    feed idle (UInt8.ofNat (v / 4096 % 0x10 + 0xE0)).toNat = ([], ⟨2, if v / 4096 = 0 then 0xA0 else
      0x80, if v / 4096 = 13 then 0x9F else 0xBF, v / 4096⟩) := by
  have hd : v / 4096 % 0x10 = v / 4096 := by omega
  have hm : (v / 4096 + 0xE0) % 16 = v / 4096 := by omega
  have h0 : v / 4096 + 0xE0 = 0xE0 ↔ v / 4096 = 0 := by omega
  have h13 : v / 4096 + 0xE0 = 0xED ↔ v / 4096 = 13 := by omega
  rw [toNat_ofNat (by omega)]
  refine feed_lead ?_
  unfold lead
  rw [if_neg (by omega), if_pos (by omega), hd, hm]
  simp only [h0, h13]

theorem feed_lead_four (h : v / 262144 ≤ 4) :
    feed idle (UInt8.ofNat (v / 262144 % 0x08 + 0xF0)).toNat = ([], ⟨3, if v / 262144 = 0 then 0x90
      else 0x80, if v / 262144 = 4 then 0x8F else 0xBF, v / 262144⟩) := by
  have hd : v / 262144 % 0x08 = v / 262144 := by omega
  have hm : (v / 262144 + 0xF0) % 8 = v / 262144 := by omega
  have h0 : v / 262144 + 0xF0 = 0xF0 ↔ v / 262144 = 0 := by omega
  have h4 : v / 262144 + 0xF0 = 0xF4 ↔ v / 262144 = 4 := by omega
  rw [toNat_ofNat (by omega)]
  refine feed_lead ?_
  unfold lead
  rw [if_neg (by omega), if_neg (by omega), if_pos (by omega), hd, hm]
  simp only [h0, h4]

end

/-- **The encoding of a character** leads to it. -/
theorem chain_encode (c : Char) : Chain idle (String.utf8EncodeChar c) c := by
  have hvalid : c.val.toNat < 0xD800 ∨ 0xDFFF < c.val.toNat ∧ c.val.toNat < 0x110000 := c.valid
  have hc : Char.ofNat c.val.toNat = c := Char.ofNat_toNat c
  unfold String.utf8EncodeChar
  generalize c.val.toNat = v at hvalid hc
  subst hc
  dsimp only
  split_ifs with h1 h2 h3
  · refine .last ?_
    rw [toNat_ofNat (by omega), feed_idle]
    exact if_pos (by omega)
  · exact .more (feed_lead_two (by omega) (by omega)) (by simp) (chain_last v)
  · -- the bounds of the second byte leave out surrogates and what fits in two bytes
    refine .more (feed_lead_three (by omega)) (by simp) (chain_last_two ?_ ?_)
    · split_ifs <;> omega
    · split_ifs <;> omega
  · refine .more (feed_lead_four (by omega)) (by simp) (chain_last_three ?_ ?_)
    · split_ifs <;> omega
    · split_ifs <;> omega

theorem Chain.decodeFrom {p : Pending} {bs : List UInt8} {c : Char} (h : Chain p bs c)
    (s : List UInt8) : decodeFrom p (bs ++ s) = c :: decode s := by
  induction h with
  | last h =>
    rw [List.singleton_append, Utf8.decodeFrom, h]
    rfl
  | more h _ _ ih =>
    rw [List.cons_append, Utf8.decodeFrom, h]
    exact ih

/-- A character that is broken off is replaced. -/
theorem Chain.decodeFrom_cut {p : Pending} {bs r r' : List UInt8} {c : Char} (h : Chain p bs c)
    (hp : p.need ≠ 0 ∨ r ≠ []) (hbs : bs = r ++ r') (hr' : r' ≠ []) :
    Utf8.decodeFrom p r = [replacement] := by
  induction h generalizing r with
  | @last p b c h =>
    rcases List.append_eq_singleton_iff.mp hbs.symm with ⟨rfl, rfl⟩ | ⟨-, rfl⟩
    · rw [Utf8.decodeFrom, if_neg (hp.resolve_right (by simp))]
    · exact absurd rfl hr'
  | more h hq hc ih =>
    cases r with
    | nil => rw [Utf8.decodeFrom, if_neg (hp.resolve_right (by simp))]
    | cons b r =>
      obtain ⟨rfl, rfl⟩ := List.cons.inj hbs
      rw [Utf8.decodeFrom, h, List.nil_append]
      exact ih (Or.inl hq) rfl

theorem decode_encodeChar (c : Char) (s : List UInt8) :
    decode (String.utf8EncodeChar c ++ s) = c :: decode s := (chain_encode c).decodeFrom s

/-- The beginning of a character. -/
theorem decode_prefix {c : Char} {r r' : List UInt8} (h : String.utf8EncodeChar c = r ++ r')
    (hr : r ≠ []) (hr' : r' ≠ []) : decode r = [replacement] :=
  (chain_encode c).decodeFrom_cut (Or.inr hr) h hr'

/-- **Decoding** undoes encoding. -/
theorem decode_encode_append (t : List Char) (s : List UInt8) :
    decode (encode t ++ s) = t ++ decode s := by
  induction t with
  | nil => rfl
  | cons c t ih => rw [encode_cons, List.append_assoc, decode_encodeChar, ih, List.cons_append]

theorem decode_encode (t : List Char) : decode (encode t) = t := by
  have h := decode_encode_append t []
  rw [List.append_nil] at h
  rw [h]
  exact List.append_nil t

/-- A byte that continues nothing is replaced. -/
theorem decode_cont {b : UInt8} (h : isCont b) (s : List UInt8) :
    decode (b :: s) = replacement :: decode s := by
  have hf : feed idle b.toNat = ([replacement], idle) := by
    obtain ⟨h1, h2⟩ := h
    rw [feed_idle]
    unfold fresh lead
    rw [if_neg (by omega), if_neg (by omega), if_neg (by omega), if_neg (by omega)]
  rw [decode, decodeFrom, hf]
  rfl

theorem decode_conts {r : List UInt8} (h : ∀ b ∈ r, isCont b) (s : List UInt8) :
    decode (r ++ s) = List.replicate r.length replacement ++ decode s := by
  induction r with
  | nil => rfl
  | cons b r ih =>
    rw [List.cons_append, decode_cont (h b List.mem_cons_self),
      ih fun b hb => h b (List.mem_cons_of_mem _ hb), List.length_cons, List.replicate_succ,
      List.cons_append]

/-- All bytes of a character but the first continue it. -/
theorem isCont_of_encodeChar {c : Char} {r r' : List UInt8} (h : String.utf8EncodeChar c = r ++ r')
    (hr : r ≠ []) : ∀ b ∈ r', isCont b := by
  have htail : ∀ b ∈ (String.utf8EncodeChar c).tail, isCont b := by
    have hb : ∀ n, isCont (UInt8.ofNat (n % 0x40 + 0x80)) := fun n => by
      unfold isCont
      rw [toNat_ofNat (by omega)]
      omega
    unfold String.utf8EncodeChar
    dsimp only
    split_ifs <;>
      simp only [List.tail_cons, List.mem_cons, List.not_mem_nil, or_false, forall_eq_or_imp,
        forall_eq, hb, and_self, false_implies, implies_true]
  intro b hmem
  refine htail b ?_
  obtain ⟨a, r, rfl⟩ := List.exists_cons_of_ne_nil hr
  rw [h]
  exact List.mem_append_right r hmem

/-! ### Pieces -/

/-- Characters of several bytes may have become two replacements or more. -/
inductive Frayed : List Char → List Char → Prop
  | nil : Frayed [] []
  | whole (c : Char) {t u : List Char} (h : Frayed t u) : Frayed (c :: t) (c :: u)
  | torn {c : Char} (n : ℕ) {t u : List Char} (hc : 1 < c.utf8Size) (hn : 2 ≤ n) (h : Frayed t u) :
    Frayed (c :: t) (List.replicate n replacement ++ u)

theorem Frayed.append {t u t' u' : List Char} (h : Frayed t u) (h' : Frayed t' u') :
    Frayed (t ++ t') (u ++ u') := by
  induction h with
  | nil => exact h'
  | whole c _ ih => exact .whole c ih
  | torn n hc hn _ ih =>
    rw [List.append_assoc]
    exact .torn n hc hn ih

theorem frayed_refl : ∀ t, Frayed t t
  | [] => .nil
  | c :: t => .whole c (frayed_refl t)

/-- A text that is frayed at all gets longer. -/
theorem Frayed.eq_or_length_lt {t u : List Char} (h : Frayed t u) : u = t ∨ t.length < u.length := by
  induction h with
  | nil => exact Or.inl rfl
  | whole c _ ih =>
    rcases ih with rfl | ih
    · exact Or.inl rfl
    · exact Or.inr (by simpa using ih)
  | @torn c n t u hc hn _ ih =>
    have hle : t.length ≤ u.length := by
      rcases ih with rfl | ih
      · exact le_rfl
      · exact Nat.le_of_lt ih
    refine Or.inr ?_
    rw [List.length_append, List.length_replicate, List.length_cons]
    omega

/-- A character of one byte at the end does not fray. -/
theorem Frayed.concat {t w : List Char} {d : Char} (hd : d.utf8Size = 1) (h : Frayed (t ++ [d]) w) :
    ∃ u, w = u ++ [d] ∧ Frayed t u := by
  induction t generalizing w with
  | nil =>
    cases h with
    | whole c h =>
      cases h
      exact ⟨[], rfl, .nil⟩
    | torn n hc => exact absurd hc (by omega)
  | cons c t ih =>
    cases h with
    | whole c h =>
      obtain ⟨u, rfl, hu⟩ := ih h
      exact ⟨c :: u, rfl, .whole c hu⟩
    | torn n hc hn h =>
      obtain ⟨u, rfl, hu⟩ := ih h
      exact ⟨_, (List.append_assoc _ _ _).symm, .torn n hc hn hu⟩

/-- No character but the replacement is new. -/
theorem Frayed.notMem {t u : List Char} (h : Frayed t u) {d : Char} (hd : d ≠ replacement)
    (ht : d ∉ t) : d ∉ u := by
  induction h with
  | nil => exact ht
  | whole c _ ih =>
    rw [List.mem_cons, not_or] at ht ⊢
    exact ⟨ht.1, ih ht.2⟩
  | torn n _ _ _ ih =>
    rw [List.mem_cons, not_or] at ht
    rw [List.mem_append, not_or]
    exact ⟨fun hmem => hd (List.eq_of_mem_replicate hmem), ih ht.2⟩

/-- A cut through the encoding of a text goes between two characters, or through one. -/
theorem encode_eq_append {t : List Char} {x y : List UInt8} (h : encode t = x ++ y) :
    (∃ p q, t = p ++ q ∧ x = encode p ∧ y = encode q) ∨
    ∃ p c q r r', t = p ++ c :: q ∧ String.utf8EncodeChar c = r ++ r' ∧ r ≠ [] ∧ r' ≠ [] ∧
      x = encode p ++ r ∧ y = r' ++ encode q := by
  induction t generalizing x with
  | nil =>
    obtain ⟨rfl, rfl⟩ := List.append_eq_nil_iff.mp h.symm
    exact Or.inl ⟨[], [], rfl, rfl, rfl⟩
  | cons c t ih =>
    rw [encode_cons] at h
    rcases List.append_eq_append_iff.mp h with ⟨x', rfl, hx⟩ | ⟨r', hc, rfl⟩
    · rcases ih hx with ⟨p, q, rfl, rfl, rfl⟩ | ⟨p, d, q, r, r', rfl, hd, hr, hr', rfl, rfl⟩
      · exact Or.inl ⟨c :: p, q, rfl, rfl, rfl⟩
      · exact Or.inr ⟨c :: p, d, q, r, r', rfl, hd, hr, hr', by simp, rfl⟩
    · by_cases hx : x = []
      · subst hx
        exact Or.inl ⟨[], c :: t, rfl, rfl, by rw [encode_cons, hc, List.nil_append]⟩
      by_cases hr : r' = []
      · subst hr
        rw [List.append_nil] at hc
        exact Or.inl ⟨[c], t, rfl, by simp [hc], rfl⟩
      · exact Or.inr ⟨[], c, t, x, r', rfl, hc, hx, hr, rfl, rfl⟩

/-- The pieces are encodings of pieces of the text. -/
def Aligned (t : List Char) (pieces : List (List UInt8)) : Prop :=
  ∃ parts : List (List Char), parts.flatten = t ∧ pieces = parts.map encode

theorem decodeAll_of_aligned {t : List Char} {pieces : List (List UInt8)} (h : Aligned t pieces) :
    decodeAll pieces = t := by
  obtain ⟨parts, rfl, rfl⟩ := h
  induction parts with
  | nil => rfl
  | cons p parts ih => rw [List.map_cons, decodeAll_cons, decode_encode, ih, List.flatten_cons]

/-- **Decoding in pieces**, the first of which may begin with the rest of a character: the rest is
replaced byte by byte, and the text frays unless the pieces are aligned. -/
theorem frayed_of_flatten (pieces : List (List UInt8)) : ∀ (r : List UInt8) (t : List Char),
    (∀ b ∈ r, isCont b) → pieces.flatten = r ++ encode t → ∃ u, Frayed t u ∧
      decodeAll pieces = List.replicate r.length replacement ++ u ∧
        (r = [] → u = t → Aligned t pieces) := by
  induction pieces with
  | nil =>
    intro r t _ h
    obtain ⟨rfl, ht⟩ := List.append_eq_nil_iff.mp h.symm
    have ht : t = [] := by rw [← decode_encode t, ht]; rfl
    subst ht
    exact ⟨[], .nil, rfl, fun _ _ => ⟨[], rfl, rfl⟩⟩
  | cons x pieces ih =>
    intro r t hr h
    rw [List.flatten_cons] at h
    rcases List.append_eq_append_iff.mp h with ⟨r', rfl, hrest⟩ | ⟨y, rfl, ht⟩
    · -- the piece is part of the rest of the character
      obtain ⟨u, hu, hd, hal⟩ := ih r' t (fun b hb => hr b (List.mem_append_right _ hb)) hrest
      have hx : decode x = List.replicate x.length replacement := by
        have := decode_conts (fun b hb => hr b (List.mem_append_left _ hb)) (r := x) []
        rw [List.append_nil] at this
        rw [this]
        exact List.append_nil _
      refine ⟨u, hu, ?_, fun hnil he => ?_⟩
      · rw [decodeAll_cons, hx, hd, List.length_append, List.replicate_add, List.append_assoc]
      · obtain ⟨rfl, rfl⟩ := List.append_eq_nil_iff.mp hnil
        obtain ⟨parts, hp, hm⟩ := hal rfl he
        exact ⟨[] :: parts, by simpa using hp, by simp [hm]⟩
    · rcases encode_eq_append ht with ⟨p, q, rfl, rfl, hq⟩ |
        ⟨p, c, q, s, s', rfl, hc, hs, hs', rfl, hq⟩
      · -- it ends between two characters
        obtain ⟨u, hu, hd, hal⟩ := ih [] q (by simp) hq
        refine ⟨p ++ u, (frayed_refl p).append hu, ?_, fun hnil he => ?_⟩
        · rw [decodeAll_cons, decode_conts hr, decode_encode, hd, List.append_assoc]
          rfl
        · subst hnil
          obtain ⟨parts, hp, hm⟩ := hal rfl (List.append_cancel_left he)
          exact ⟨p :: parts, by simp [hp], by simp [hm]⟩
      · -- it ends in the middle of one
        obtain ⟨u, hu, hd, -⟩ := ih s' q (isCont_of_encodeChar hc hs) hq
        have hlen : s.length + s'.length = c.utf8Size := by
          rw [← String.length_utf8EncodeChar, hc, List.length_append]
        have h1 := List.length_pos_iff.mpr hs
        have h2 := List.length_pos_iff.mpr hs'
        refine ⟨p ++ (List.replicate (s'.length + 1) replacement ++ u),
          (frayed_refl p).append (.torn _ (by omega) (by omega) hu), ?_, fun _ he => ?_⟩
        · rw [decodeAll_cons, decode_conts hr, decode_encode_append, decode_prefix hc hs hs', hd,
            List.replicate_succ]
          simp
        · have he := congrArg List.length (List.append_cancel_left he)
          rw [List.length_append, List.length_replicate, List.length_cons] at he
          rcases hu.eq_or_length_lt with rfl | hlt
          · omega
          · omega

/-- **A text that arrives in pieces** frays, and comes out as it was only if no cut goes through a
character. -/
theorem frayed_decodeAll {t : List Char} {pieces : List (List UInt8)}
    (h : pieces.flatten = encode t) :
    Frayed t (decodeAll pieces) ∧ (decodeAll pieces = t ↔ Aligned t pieces) := by
  obtain ⟨u, hu, hd, hal⟩ := frayed_of_flatten pieces [] t (by simp) h
  rw [List.length_nil, List.replicate_zero, List.nil_append] at hd
  subst hd
  exact ⟨hu, hal rfl, decodeAll_of_aligned⟩

end BrainEngine.Lib.Utf8
