import Mathlib.Data.List.Basic
import Mathlib.Tactic.Common

/-!
# The streaming UTF-8 decoder

A text is a list of Unicode scalar values; its encoding spreads the bits of a value over one to
four bytes. The decoder reads one byte at a time and keeps the bits read so far, how many bytes
are still to come and the bounds of the next byte. At the end of the input an incomplete value
is an error, except in a stream that goes on. The decoder yields a text exactly on its encoding,
and in a stream on what can be completed to an encoding.
-/

namespace Utf8

/-- Unicode scalar values: the code points without the surrogates. -/
def IsScalar (c : ℕ) : Prop := c < 0xD800 ∨ 0xE000 ≤ c ∧ c < 0x110000

/-- The bytes of a scalar value. -/
def encode (c : ℕ) : List ℕ :=
  if c < 0x80 then [c]
  else if c < 0x800 then [0xC0+c/0x40,0x80+c%0x40]
  else if c < 0x10000 then [0xE0+c/0x1000,0x80+c/0x40%0x40,0x80+c%0x40]
  else [0xF0+c/0x40000,0x80+c/0x1000%0x40,0x80+c/0x40%0x40,0x80+c%0x40]

/-- The encoding of a text. -/
def WellFormed (bytes : List ℕ) : Prop := ∃ cs : List ℕ, (∀ c ∈ cs, IsScalar c) ∧ bytes = cs.flatMap encode

/-- The fields of the decoder between two bytes. -/
structure Decoder where
  codePoint : ℕ
  bytesSeen : ℕ
  bytesNeeded : ℕ
  lowerBoundary : ℕ
  upperBoundary : ℕ
  deriving DecidableEq, Repr

def Decoder.start : Decoder := ⟨0,0,0,0x80,0xBF⟩

/-- The first byte of a value. -/
def lead (byte : ℕ) : Option (Decoder × Option ℕ) :=
  if byte ≤ 0x7F then some (.start,some byte)
  else if 0xC2 ≤ byte ∧ byte ≤ 0xDF then some (⟨byte-0xC0,0,1,0x80,0xBF⟩,none)
  else if 0xE0 ≤ byte ∧ byte ≤ 0xEF then
    some (⟨byte-0xE0,0,2,if byte = 0xE0 then 0xA0 else 0x80,if byte = 0xED then 0x9F else 0xBF⟩,none)
  else if 0xF0 ≤ byte ∧ byte ≤ 0xF4 then
    some (⟨byte-0xF0,0,3,if byte = 0xF0 then 0x90 else 0x80,if byte = 0xF4 then 0x8F else 0xBF⟩,none)
  else none

/-- One byte: the decoder after it and the value it completes, or an error. -/
def Decoder.handle (d : Decoder) (byte : ℕ) : Option (Decoder × Option ℕ) :=
  if d.bytesNeeded = 0 then lead byte
  else if byte < d.lowerBoundary ∨ d.upperBoundary < byte then none
  else
    let codePoint := d.codePoint*0x40+(byte-0x80)
    if d.bytesSeen+1 = d.bytesNeeded then some (.start,some codePoint)
    else some (⟨codePoint,d.bytesSeen+1,d.bytesNeeded,0x80,0xBF⟩,none)

/-- The decoder after some bytes, with the values it has put out. -/
def run (d : Decoder) : List ℕ → Option (Decoder × List ℕ)
  | [] => some (d,[])
  | b::bs =>
    match d.handle b with
    | none => none
    | some (d',out) => (run d' bs).map fun r => (r.1,out.toList++r.2)

/-- `new TextDecoder('utf-8', { fatal: true }).decode(bytes, { stream })`, where `none` is the
exception. -/
def decode (stream : Bool) (bytes : List ℕ) : Option (List ℕ) :=
  match run .start bytes with
  | none => none
  | some (d,out) => if stream = false ∧ d.bytesNeeded ≠ 0 then none else some out

theorem run_append (d : Decoder) (as bs : List ℕ) :
    run d (as++bs) = (run d as).bind fun r => (run r.1 bs).map fun r' => (r'.1,r.2++r'.2) := by
  induction as generalizing d with
  | nil => simp [run]
  | cons a as ih =>
    simp only [List.cons_append,run]
    cases d.handle a with
    | none => rfl
    | some r =>
      simp only [ih]
      cases run r.1 as with
      | none => rfl
      | some r' =>
        simp only [Option.bind_some,Option.map_some,Option.map_map]
        cases run r'.1 bs with
        | none => rfl
        | some r'' => simp

/-! ### The steps of the decoder -/

theorem handle_start (b : ℕ) : Decoder.start.handle b = lead b := rfl

theorem lead_one {b : ℕ} (h : b ≤ 0x7F) : Decoder.start.handle b = some (.start,some b) := by
  rw [handle_start,lead,if_pos h]

theorem lead_two {b : ℕ} (h : 0xC2 ≤ b ∧ b ≤ 0xDF) : Decoder.start.handle b = some (⟨b-0xC0,0,1,0x80,0xBF⟩,none) := by
  have h₁ : ¬ b ≤ 0x7F := by omega
  rw [handle_start,lead,if_neg h₁,if_pos h]

theorem lead_three {b : ℕ} (h : 0xE0 ≤ b ∧ b ≤ 0xEF) : Decoder.start.handle b =
    some (⟨b-0xE0,0,2,if b = 0xE0 then 0xA0 else 0x80,if b = 0xED then 0x9F else 0xBF⟩,none) := by
  have h₁ : ¬ b ≤ 0x7F := by omega
  have h₂ : ¬ (0xC2 ≤ b ∧ b ≤ 0xDF) := by omega
  rw [handle_start,lead,if_neg h₁,if_neg h₂,if_pos h]

theorem lead_four {b : ℕ} (h : 0xF0 ≤ b ∧ b ≤ 0xF4) : Decoder.start.handle b =
    some (⟨b-0xF0,0,3,if b = 0xF0 then 0x90 else 0x80,if b = 0xF4 then 0x8F else 0xBF⟩,none) := by
  have h₁ : ¬ b ≤ 0x7F := by omega
  have h₂ : ¬ (0xC2 ≤ b ∧ b ≤ 0xDF) := by omega
  have h₃ : ¬ (0xE0 ≤ b ∧ b ≤ 0xEF) := by omega
  rw [handle_start,lead,if_neg h₁,if_neg h₂,if_neg h₃,if_pos h]

/-- The first bytes. -/
theorem lead_cases {b : ℕ} {r : Decoder × Option ℕ} (h : Decoder.start.handle b = some r) :
    b ≤ 0x7F ∨ (0xC2 ≤ b ∧ b ≤ 0xDF) ∨ (0xE0 ≤ b ∧ b ≤ 0xEF) ∨ 0xF0 ≤ b ∧ b ≤ 0xF4 := by
  by_contra hno
  simp only [not_or] at hno
  obtain ⟨h₁,h₂,h₃,h₄⟩ := hno
  rw [handle_start,lead,if_neg h₁,if_neg h₂,if_neg h₃,if_neg h₄] at h
  contradiction

theorem handle_more {v seen needed l u b : ℕ} (hb : l ≤ b ∧ b ≤ u) (hn : seen+1 < needed) :
    (Decoder.mk v seen needed l u).handle b = some (⟨v*0x40+(b-0x80),seen+1,needed,0x80,0xBF⟩,none) := by
  have h₁ : needed ≠ 0 := by omega
  have h₂ : ¬ (b < l ∨ u < b) := by omega
  have h₃ : seen+1 ≠ needed := by omega
  simp only [Decoder.handle,h₁,h₂,h₃,if_false]

theorem handle_last {v seen l u b : ℕ} (hb : l ≤ b ∧ b ≤ u) :
    (Decoder.mk v seen (seen+1) l u).handle b = some (.start,some (v*0x40+(b-0x80))) := by
  have h₁ : seen+1 ≠ 0 := by omega
  have h₂ : ¬ (b < l ∨ u < b) := by omega
  simp only [Decoder.handle,h₁,h₂,if_false,if_true]

/-- Within a value the next byte lies within the bounds. -/
theorem handle_bounds {d : Decoder} {b : ℕ} {r : Decoder × Option ℕ} (h : d.handle b = some r)
    (hn : d.bytesNeeded ≠ 0) : d.lowerBoundary ≤ b ∧ b ≤ d.upperBoundary := by
  by_contra hb
  have h₁ : b < d.lowerBoundary ∨ d.upperBoundary < b := by omega
  simp only [Decoder.handle,hn,h₁,if_false,if_true] at h
  contradiction

theorem run_more {d d' : Decoder} {b : ℕ} (h : d.handle b = some (d',none)) (bs : List ℕ) :
    run d (b::bs) = run d' bs := by
  simp [run,h]

theorem run_last {d d' : Decoder} {b c : ℕ} (h : d.handle b = some (d',some c)) :
    run d [b] = some (d',[c]) := by
  simp [run,h]

/-! ### Encodings are decoded -/

theorem run_encode_one {c : ℕ} (h : c < 0x80) : run .start (encode c) = some (.start,[c]) := by
  rw [encode,if_pos h]
  exact run_last (lead_one (by omega))

theorem run_encode_two {c : ℕ} (h : 0x80 ≤ c) (h' : c < 0x800) :
    run .start (encode c) = some (.start,[c]) := by
  have h₁ : ¬ c < 0x80 := by omega
  rw [encode,if_neg h₁,if_pos h',run_more (lead_two (by omega)),run_last (handle_last (by omega))]
  have hc : (0xC0+c/0x40-0xC0)*0x40+(0x80+c%0x40-0x80) = c := by omega
  rw [hc]

theorem run_encode_three {c : ℕ} (h : 0x800 ≤ c) (h' : c < 0x10000) (hs : IsScalar c) :
    run .start (encode c) = some (.start,[c]) := by
  unfold IsScalar at hs
  have h₁ : ¬ c < 0x80 := by omega
  have h₂ : ¬ c < 0x800 := by omega
  have hlow : (if 0xE0+c/0x1000 = 0xE0 then 0xA0 else 0x80) ≤ 0x80+c/0x40%0x40 := by
    split <;> omega
  have hhigh : 0x80+c/0x40%0x40 ≤ if 0xE0+c/0x1000 = 0xED then 0x9F else 0xBF := by
    split <;> omega
  rw [encode,if_neg h₁,if_neg h₂,if_pos h',run_more (lead_three (by omega)),
    run_more (handle_more ⟨hlow,hhigh⟩ (by omega)),run_last (handle_last (by omega))]
  have hc : ((0xE0+c/0x1000-0xE0)*0x40+(0x80+c/0x40%0x40-0x80))*0x40+(0x80+c%0x40-0x80) = c := by
    clear hlow hhigh
    omega
  rw [hc]

theorem run_encode_four {c : ℕ} (h : 0x10000 ≤ c) (hs : IsScalar c) :
    run .start (encode c) = some (.start,[c]) := by
  unfold IsScalar at hs
  have h₁ : ¬ c < 0x80 := by omega
  have h₂ : ¬ c < 0x800 := by omega
  have h₃ : ¬ c < 0x10000 := by omega
  have hlow : (if 0xF0+c/0x40000 = 0xF0 then 0x90 else 0x80) ≤ 0x80+c/0x1000%0x40 := by
    split <;> omega
  have hhigh : 0x80+c/0x1000%0x40 ≤ if 0xF0+c/0x40000 = 0xF4 then 0x8F else 0xBF := by
    split <;> omega
  rw [encode,if_neg h₁,if_neg h₂,if_neg h₃,run_more (lead_four (by omega)),
    run_more (handle_more ⟨hlow,hhigh⟩ (by omega)),run_more (handle_more (by omega) (by omega)),
    run_last (handle_last (by omega))]
  have hc : (((0xF0+c/0x40000-0xF0)*0x40+(0x80+c/0x1000%0x40-0x80))*0x40+(0x80+c/0x40%0x40-0x80))*0x40+
      (0x80+c%0x40-0x80) = c := by
    clear hlow hhigh
    omega
  rw [hc]

/-- The bytes of a value are read as the value. -/
theorem run_encode {c : ℕ} (hs : IsScalar c) : run .start (encode c) = some (.start,[c]) := by
  by_cases h₁ : c < 0x80
  · exact run_encode_one h₁
  · by_cases h₂ : c < 0x800
    · exact run_encode_two (by omega) h₂
    · by_cases h₃ : c < 0x10000
      · exact run_encode_three (by omega) h₃ hs
      · exact run_encode_four (by omega) hs

theorem run_flatMap {cs : List ℕ} (h : ∀ c ∈ cs, IsScalar c) :
    run .start (cs.flatMap encode) = some (.start,cs) := by
  induction cs with
  | nil => rfl
  | cons c cs ih =>
    rw [List.flatMap_cons,run_append,run_encode (h c (by simp))]
    simp [ih fun c hc => h c (by simp [hc])]

/-! ### What is decoded is an encoding -/

/-- The bytes of an incomplete value, with the decoder after them. -/
inductive Partial : List ℕ → Decoder → Prop
  | nil : Partial [] .start
  | two (a : ℕ) (h : 0xC2 ≤ a ∧ a ≤ 0xDF) : Partial [a] ⟨a-0xC0,0,1,0x80,0xBF⟩
  | three (a l u : ℕ) (h : 0xE0 ≤ a ∧ a ≤ 0xEF) (hl : l = if a = 0xE0 then 0xA0 else 0x80)
      (hu : u = if a = 0xED then 0x9F else 0xBF) : Partial [a] ⟨a-0xE0,0,2,l,u⟩
  | three' (a b l u : ℕ) (h : 0xE0 ≤ a ∧ a ≤ 0xEF) (hl : l = if a = 0xE0 then 0xA0 else 0x80)
      (hu : u = if a = 0xED then 0x9F else 0xBF) (hb : l ≤ b ∧ b ≤ u) :
      Partial [a,b] ⟨(a-0xE0)*0x40+(b-0x80),1,2,0x80,0xBF⟩
  | four (a l u : ℕ) (h : 0xF0 ≤ a ∧ a ≤ 0xF4) (hl : l = if a = 0xF0 then 0x90 else 0x80)
      (hu : u = if a = 0xF4 then 0x8F else 0xBF) : Partial [a] ⟨a-0xF0,0,3,l,u⟩
  | four' (a b l u : ℕ) (h : 0xF0 ≤ a ∧ a ≤ 0xF4) (hl : l = if a = 0xF0 then 0x90 else 0x80)
      (hu : u = if a = 0xF4 then 0x8F else 0xBF) (hb : l ≤ b ∧ b ≤ u) :
      Partial [a,b] ⟨(a-0xF0)*0x40+(b-0x80),1,3,0x80,0xBF⟩
  | four'' (a b c l u : ℕ) (h : 0xF0 ≤ a ∧ a ≤ 0xF4) (hl : l = if a = 0xF0 then 0x90 else 0x80)
      (hu : u = if a = 0xF4 then 0x8F else 0xBF) (hb : l ≤ b ∧ b ≤ u) (hc : 0x80 ≤ c ∧ c ≤ 0xBF) :
      Partial [a,b,c] ⟨((a-0xF0)*0x40+(b-0x80))*0x40+(c-0x80),2,3,0x80,0xBF⟩

/-- A byte extends the incomplete value or completes its encoding. -/
def Extends (bytes : List ℕ) : Decoder × Option ℕ → Prop
  | (d,none) => Partial bytes d
  | (d,some c) => d = .start ∧ IsScalar c ∧ bytes = encode c

theorem lead_extends {b : ℕ} {r : Decoder × Option ℕ} (h : Decoder.start.handle b = some r) : Extends [b] r := by
  rcases lead_cases h with hb | hb | hb | hb
  · rw [lead_one hb] at h
    obtain rfl := Option.some.inj h
    have hlt : b < 0x80 := by omega
    exact ⟨rfl,.inl (by omega),by rw [encode,if_pos hlt]⟩
  · rw [lead_two hb] at h
    obtain rfl := Option.some.inj h
    exact .two b hb
  · rw [lead_three hb] at h
    obtain rfl := Option.some.inj h
    exact .three b _ _ hb rfl rfl
  · rw [lead_four hb] at h
    obtain rfl := Option.some.inj h
    exact .four b _ _ hb rfl rfl

theorem encode_two {a b : ℕ} (ha : 0xC2 ≤ a ∧ a ≤ 0xDF) (hb : 0x80 ≤ b ∧ b ≤ 0xBF) :
    IsScalar ((a-0xC0)*0x40+(b-0x80)) ∧ [a,b] = encode ((a-0xC0)*0x40+(b-0x80)) := by
  have h₁ : ¬ (a-0xC0)*0x40+(b-0x80) < 0x80 := by omega
  have h₂ : (a-0xC0)*0x40+(b-0x80) < 0x800 := by omega
  refine ⟨.inl (by omega),?_⟩
  rw [encode,if_neg h₁,if_pos h₂]
  simp only [List.cons.injEq,and_true]
  omega

theorem encode_three {a b c l u : ℕ} (ha : 0xE0 ≤ a ∧ a ≤ 0xEF) (hl : l = if a = 0xE0 then 0xA0 else 0x80)
    (hu : u = if a = 0xED then 0x9F else 0xBF) (hb : l ≤ b ∧ b ≤ u) (hc : 0x80 ≤ c ∧ c ≤ 0xBF) :
    IsScalar (((a-0xE0)*0x40+(b-0x80))*0x40+(c-0x80)) ∧
      [a,b,c] = encode (((a-0xE0)*0x40+(b-0x80))*0x40+(c-0x80)) := by
  have hlow : 0x80 ≤ l ∧ (a = 0xE0 → l = 0xA0) := by
    rw [hl]
    split <;> omega
  have hhigh : u ≤ 0xBF ∧ (a = 0xED → u = 0x9F) := by
    rw [hu]
    split <;> omega
  clear hl hu
  have h₁ : ¬ ((a-0xE0)*0x40+(b-0x80))*0x40+(c-0x80) < 0x80 := by omega
  have h₂ : ¬ ((a-0xE0)*0x40+(b-0x80))*0x40+(c-0x80) < 0x800 := by omega
  have h₃ : ((a-0xE0)*0x40+(b-0x80))*0x40+(c-0x80) < 0x10000 := by omega
  refine ⟨?_,?_⟩
  · unfold IsScalar
    omega
  · rw [encode,if_neg h₁,if_neg h₂,if_pos h₃]
    simp only [List.cons.injEq,and_true]
    omega

theorem encode_four {a b c d l u : ℕ} (ha : 0xF0 ≤ a ∧ a ≤ 0xF4)
    (hl : l = if a = 0xF0 then 0x90 else 0x80) (hu : u = if a = 0xF4 then 0x8F else 0xBF)
    (hb : l ≤ b ∧ b ≤ u) (hc : 0x80 ≤ c ∧ c ≤ 0xBF) (hd : 0x80 ≤ d ∧ d ≤ 0xBF) :
    IsScalar ((((a-0xF0)*0x40+(b-0x80))*0x40+(c-0x80))*0x40+(d-0x80)) ∧
      [a,b,c,d] = encode ((((a-0xF0)*0x40+(b-0x80))*0x40+(c-0x80))*0x40+(d-0x80)) := by
  have hlow : 0x80 ≤ l ∧ (a = 0xF0 → l = 0x90) := by
    rw [hl]
    split <;> omega
  have hhigh : u ≤ 0xBF ∧ (a = 0xF4 → u = 0x8F) := by
    rw [hu]
    split <;> omega
  clear hl hu
  have h₁ : ¬ (((a-0xF0)*0x40+(b-0x80))*0x40+(c-0x80))*0x40+(d-0x80) < 0x80 := by omega
  have h₂ : ¬ (((a-0xF0)*0x40+(b-0x80))*0x40+(c-0x80))*0x40+(d-0x80) < 0x800 := by omega
  have h₃ : ¬ (((a-0xF0)*0x40+(b-0x80))*0x40+(c-0x80))*0x40+(d-0x80) < 0x10000 := by omega
  refine ⟨?_,?_⟩
  · unfold IsScalar
    omega
  · rw [encode,if_neg h₁,if_neg h₂,if_neg h₃]
    simp only [List.cons.injEq,and_true]
    omega

theorem Partial.handle {bytes : List ℕ} {d : Decoder} (hp : Partial bytes d) {b : ℕ}
    {r : Decoder × Option ℕ} (h : d.handle b = some r) : Extends (bytes++[b]) r := by
  cases hp with
  | nil => exact lead_extends h
  | two a ha =>
    have hb := handle_bounds h (by simp)
    rw [handle_last hb] at h
    obtain rfl := Option.some.inj h
    exact ⟨rfl,encode_two ha hb⟩
  | three a l u ha hl hu =>
    have hb := handle_bounds h (by simp)
    rw [handle_more hb (by omega)] at h
    obtain rfl := Option.some.inj h
    exact .three' a b l u ha hl hu hb
  | three' a b' l u ha hl hu hb' =>
    have hb := handle_bounds h (by simp)
    rw [handle_last hb] at h
    obtain rfl := Option.some.inj h
    exact ⟨rfl,encode_three ha hl hu hb' hb⟩
  | four a l u ha hl hu =>
    have hb := handle_bounds h (by simp)
    rw [handle_more hb (by omega)] at h
    obtain rfl := Option.some.inj h
    exact .four' a b l u ha hl hu hb
  | four' a b' l u ha hl hu hb' =>
    have hb := handle_bounds h (by simp)
    rw [handle_more hb (by omega)] at h
    obtain rfl := Option.some.inj h
    exact .four'' a b' b l u ha hl hu hb' hb
  | four'' a b' c l u ha hl hu hb' hc =>
    have hb := handle_bounds h (by simp)
    rw [handle_last hb] at h
    obtain rfl := Option.some.inj h
    exact ⟨rfl,encode_four ha hl hu hb' hc hb⟩

/-- The bytes read are the encoding of the values put out and the bytes of an incomplete
value. -/
theorem run_sound {bytes pre : List ℕ} {d d' : Decoder} {out : List ℕ} (hp : Partial pre d)
    (h : run d bytes = some (d',out)) : (∀ c ∈ out, IsScalar c) ∧
      ∃ rest, Partial rest d' ∧ pre++bytes = out.flatMap encode++rest := by
  induction bytes generalizing pre d out with
  | nil =>
    obtain ⟨rfl,rfl⟩ := Prod.mk.inj (Option.some.inj h)
    exact ⟨by simp,pre,hp,by simp⟩
  | cons b bytes ih =>
    simp only [run] at h
    cases hstep : d.handle b with
    | none => simp [hstep] at h
    | some r =>
      obtain ⟨d₁,o⟩ := r
      simp only [hstep] at h
      obtain ⟨⟨d₂,out'⟩,hrun,he⟩ := Option.map_eq_some_iff.mp h
      obtain ⟨rfl,rfl⟩ := Prod.mk.inj he
      have hext := hp.handle hstep
      cases o with
      | none =>
        obtain ⟨hs,rest,hrest,heq⟩ := ih hext hrun
        exact ⟨by simpa using hs,rest,hrest,by simpa using heq⟩
      | some c =>
        obtain ⟨rfl,hc,hbytes⟩ := hext
        obtain ⟨hs,rest,hrest,heq⟩ := ih .nil hrun
        refine ⟨?_,rest,hrest,?_⟩
        · simpa using ⟨hc,hs⟩
        · have happ : pre++b::bytes = (pre++[b])++bytes := by simp
          rw [happ,hbytes]
          simpa using heq

/-- An incomplete value can be completed. -/
theorem Partial.complete {bytes : List ℕ} {d : Decoder} (hp : Partial bytes d) :
    ∃ rest c, bytes++rest = [] ∨ IsScalar c ∧ bytes++rest = encode c := by
  cases hp with
  | nil => exact ⟨[],0,.inl rfl⟩
  | two a ha => exact ⟨[0x80],_,.inr (encode_two ha (by omega))⟩
  | three a l u ha hl hu =>
    have hlu : l ≤ u := by
      rw [hl,hu]
      split <;> split <;> omega
    exact ⟨[l,0x80],_,.inr (encode_three ha hl hu ⟨Nat.le_refl l,hlu⟩ (by omega))⟩
  | three' a b l u ha hl hu hb => exact ⟨[0x80],_,.inr (encode_three ha hl hu hb (by omega))⟩
  | four a l u ha hl hu =>
    have hlu : l ≤ u := by
      rw [hl,hu]
      split <;> split <;> omega
    exact ⟨[l,0x80,0x80],_,.inr (encode_four ha hl hu ⟨Nat.le_refl l,hlu⟩ (by omega) (by omega))⟩
  | four' a b l u ha hl hu hb =>
    exact ⟨[0x80,0x80],_,.inr (encode_four ha hl hu hb (by omega) (by omega))⟩
  | four'' a b c l u ha hl hu hb hc => exact ⟨[0x80],_,.inr (encode_four ha hl hu hb hc (by omega))⟩

theorem Partial.eq_nil {bytes : List ℕ} {d : Decoder} (hp : Partial bytes d) (h : d.bytesNeeded = 0) :
    bytes = [] := by
  cases hp <;> simp at h ⊢

/-! ### The decoder -/

theorem decode_eq_some_iff (bytes cs : List ℕ) :
    decode false bytes = some cs ↔ (∀ c ∈ cs, IsScalar c) ∧ bytes = cs.flatMap encode := by
  constructor
  · intro h
    unfold decode at h
    split at h
    · simp at h
    · rename_i d out hrun
      split_ifs at h with hneeded
      obtain rfl := Option.some.inj h
      obtain ⟨hs,rest,hrest,heq⟩ := run_sound .nil hrun
      have hzero : d.bytesNeeded = 0 := by simpa using hneeded
      rw [hrest.eq_nil hzero] at heq
      exact ⟨hs,by simpa using heq⟩
  · rintro ⟨hs,rfl⟩
    rw [decode,run_flatMap hs]
    rfl

/-- Without a stream the decoder takes well-formed bytes. -/
theorem decode_isSome_iff (bytes : List ℕ) : (decode false bytes).isSome ↔ WellFormed bytes := by
  rw [Option.isSome_iff_exists]
  exact exists_congr fun cs => decode_eq_some_iff bytes cs

/-- In a stream it takes what some bytes to come make well-formed. -/
theorem decode_stream_isSome_iff (bytes : List ℕ) :
    (decode true bytes).isSome ↔ ∃ rest, WellFormed (bytes++rest) := by
  have hstream : (decode true bytes).isSome ↔ ∃ r, run .start bytes = some r := by
    unfold decode
    cases run .start bytes <;> simp
  rw [hstream]
  constructor
  · rintro ⟨⟨d,out⟩,hrun⟩
    obtain ⟨hs,part,hpart,heq⟩ := run_sound .nil hrun
    rw [List.nil_append] at heq
    obtain ⟨rest,c,hnil | ⟨hc,hrest⟩⟩ := hpart.complete
    · exact ⟨rest,out,hs,by rw [heq,List.append_assoc,hnil,List.append_nil]⟩
    · refine ⟨rest,out++[c],?_,?_⟩
      · intro c' hc'
        rcases List.mem_append.mp hc' with hc' | hc'
        · exact hs c' hc'
        · obtain rfl := List.mem_singleton.mp hc'
          exact hc
      · rw [heq,List.append_assoc,hrest]
        simp
  · rintro ⟨rest,cs,hs,heq⟩
    have hrun := run_flatMap hs
    rw [← heq,run_append] at hrun
    obtain ⟨r,hr,_⟩ := Option.bind_eq_some_iff.mp hrun
    exact ⟨r,hr⟩

theorem wellFormed_of_lt {bytes : List ℕ} (h : ∀ b ∈ bytes, b < 0x80) : WellFormed bytes := by
  refine ⟨bytes,fun c hc => .inl (Nat.lt_trans (h c hc) (by omega)),?_⟩
  induction bytes with
  | nil => rfl
  | cons b bytes ih =>
    have hb : encode b = [b] := by rw [encode,if_pos (h b (by simp))]
    rw [List.flatMap_cons,hb,← ih fun c hc => h c (by simp [hc])]
    rfl

end Utf8
