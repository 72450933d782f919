import ZevraServer.Utf8
import Mathlib.Data.List.Basic

/-!
# The type of an upload

`detectAllowedMime` looks for the signatures of the binary formats in the leading bytes and,
for an upload declared as plain text, decodes a sample of the file. A file longer than the
sample is decoded as a stream that goes on, and nothing after the sample is looked at.
-/

namespace ZevraServer.Uploading

/-- `AllowedMime`. -/
inductive AllowedMime
  | jpeg | png | gif | webp | pdf | msword | docx | textPlain
  deriving DecidableEq, Repr

def AllowedMime.text : AllowedMime → String
  | .jpeg => "image/jpeg"
  | .png => "image/png"
  | .gif => "image/gif"
  | .webp => "image/webp"
  | .pdf => "application/pdf"
  | .msword => "application/msword"
  | .docx => "application/vnd.openxmlformats-officedocument.wordprocessingml.document"
  | .textPlain => "text/plain"

abbrev Buffer := List UInt8

def startsWith (buf : Buffer) (bytes : List UInt8) (offset : ℕ) : Bool :=
  offset+bytes.length ≤ buf.length && (buf.drop offset).take bytes.length = bytes

/-- The length of the sample. -/
def SAMPLE : ℕ := 64*1024

def Buffer.bytes (buf : Buffer) : List ℕ := buf.map UInt8.toNat

def isProbablyUtf8Text (buf : Buffer) : Bool :=
  let sample := buf.take SAMPLE
  if sample.contains 0 then false
  else (Utf8.decode (sample.length < buf.length) (Buffer.bytes sample)).isSome

/-- What `trim` removes. -/
def isJsSpace (c : Char) : Bool :=
  c.toNat ∈ [0x09,0x0A,0x0B,0x0C,0x0D,0x20,0xA0,0x1680,0x2028,0x2029,0x202F,0x205F,0x3000,0xFEFF] ||
    0x2000 ≤ c.toNat && c.toNat ≤ 0x200A

def trim (s : List Char) : List Char := ((s.dropWhile isJsSpace).reverse.dropWhile isJsSpace).reverse

/-- `declaredMime.toLowerCase().split(';')[0].trim()`. The types it is compared with have no
letter to which another character than an ASCII letter is folded. -/
def declaredType (declaredMime : String) : String :=
  String.ofList (trim ((declaredMime.toList.map Char.toLower).takeWhile (· ≠ ';')))

def isJpeg (buf : Buffer) : Bool := startsWith buf [0xFF,0xD8,0xFF] 0

def isPng (buf : Buffer) : Bool := startsWith buf [0x89,0x50,0x4E,0x47,0x0D,0x0A,0x1A,0x0A] 0

def isGif (buf : Buffer) : Bool :=
  startsWith buf [0x47,0x49,0x46,0x38] 0 && (buf[4]? = some 0x37 || buf[4]? = some 0x39) &&
    buf[5]? = some 0x61

def isWebp (buf : Buffer) : Bool :=
  startsWith buf [0x52,0x49,0x46,0x46] 0 && startsWith buf [0x57,0x45,0x42,0x50] 8

def isPdf (buf : Buffer) : Bool := startsWith buf [0x25,0x50,0x44,0x46,0x2D] 0

def isOle (buf : Buffer) : Bool := startsWith buf [0xD0,0xCF,0x11,0xE0,0xA1,0xB1,0x1A,0xE1] 0

def isZip (buf : Buffer) : Bool := startsWith buf [0x50,0x4B,0x03,0x04] 0

def detectAllowedMime (buf : Buffer) (declaredMime : String) : Option AllowedMime :=
  if isJpeg buf then some .jpeg
  else if isPng buf then some .png
  else if isGif buf then some .gif
  else if isWebp buf then some .webp
  else if isPdf buf then some .pdf
  else
    let declared := declaredType declaredMime
    if isOle buf then if declared = AllowedMime.msword.text then some .msword else none
    else if isZip buf then if declared = AllowedMime.docx.text then some .docx else none
    else if declared = AllowedMime.textPlain.text ∧ 0 < buf.length ∧ isProbablyUtf8Text buf then
      some .textPlain
    else none

/-- None of the signatures. -/
def Unsigned (buf : Buffer) : Prop :=
  ∀ isFormat ∈ [isJpeg,isPng,isGif,isWebp,isPdf,isOle,isZip], isFormat buf = false

/-! ### The sample -/

/-- What is asked of the sample. -/
theorem isProbablyUtf8Text_iff (buf : Buffer) : isProbablyUtf8Text buf = true ↔
    0 ∉ buf.take SAMPLE ∧
      if buf.length ≤ SAMPLE then Utf8.WellFormed (Buffer.bytes buf)
      else ∃ rest, Utf8.WellFormed (Buffer.bytes (buf.take SAMPLE)++rest) := by
  unfold isProbablyUtf8Text
  by_cases hzero : 0 ∈ buf.take SAMPLE
  · simp [hzero]
  · simp only [List.contains_eq_mem,hzero,decide_false,Bool.false_eq_true,if_false,not_false_eq_true,
      true_and]
    by_cases hlen : buf.length ≤ SAMPLE
    · have htake : buf.take SAMPLE = buf := List.take_of_length_le hlen
      simp only [htake,Nat.lt_irrefl,decide_false,if_pos hlen]
      exact Utf8.decode_isSome_iff _
    · have hlt : (buf.take SAMPLE).length < buf.length := by
        rw [List.length_take]
        omega
      simp only [hlt,decide_true,if_neg hlen]
      exact Utf8.decode_stream_isSome_iff _

theorem detect_unsigned {buf : Buffer} (h : Unsigned buf) {declaredMime : String}
    (ht : declaredType declaredMime = AllowedMime.textPlain.text) :
    detectAllowedMime buf declaredMime = some .textPlain ↔ buf ≠ [] ∧ isProbablyUtf8Text buf = true := by
  have hjpeg : isJpeg buf = false := h _ (by simp)
  have hpng : isPng buf = false := h _ (by simp)
  have hgif : isGif buf = false := h _ (by simp)
  have hwebp : isWebp buf = false := h _ (by simp)
  have hpdf : isPdf buf = false := h _ (by simp)
  have hole : isOle buf = false := h _ (by simp)
  have hzip : isZip buf = false := h _ (by simp)
  have hlen : 0 < buf.length ↔ buf ≠ [] := List.length_pos_iff
  simp only [detectAllowedMime,hjpeg,hpng,hgif,hwebp,hpdf,hole,hzip,ht,Bool.false_eq_true,if_false,
    true_and,hlen]
  split <;> simp_all

/-- An unsigned upload declared as plain text is taken for it exactly if it is not empty, the
sample has no zero byte, and the file is valid UTF-8, or a longer one is valid UTF-8 up to the
edge of the sample. -/
theorem plain_text_sampled (buf : Buffer) (declaredMime : String) (h : Unsigned buf)
    (ht : declaredType declaredMime = AllowedMime.textPlain.text) :
    detectAllowedMime buf declaredMime = some .textPlain ↔
      buf ≠ [] ∧ 0 ∉ buf.take SAMPLE ∧
        if buf.length ≤ SAMPLE then Utf8.WellFormed (Buffer.bytes buf)
        else ∃ rest, Utf8.WellFormed (Buffer.bytes (buf.take SAMPLE)++rest) := by
  rw [detect_unsigned h ht,isProbablyUtf8Text_iff]

theorem unsigned_of_letter (buf : Buffer) : Unsigned (0x61::buf) := by
  intro isFormat hmem
  simp only [List.mem_cons,List.not_mem_nil,or_false] at hmem
  rcases hmem with rfl | rfl | rfl | rfl | rfl | rfl | rfl <;>
    simp [isJpeg,isPng,isGif,isWebp,isPdf,isOle,isZip,startsWith]

/-- A text of three letters. -/
theorem plain_text_sampled_short : Unsigned [0x61,0x62,0x63] ∧
    detectAllowedMime [0x61,0x62,0x63] "Text/Plain; charset=utf-8" = some .textPlain := by
  refine ⟨unsigned_of_letter _,(plain_text_sampled [0x61,0x62,0x63] "Text/Plain; charset=utf-8"
    (unsigned_of_letter _) (by decide)).mpr ⟨by simp,by decide,?_⟩⟩
  rw [if_pos (by decide)]
  exact Utf8.wellFormed_of_lt (by decide)

/-- A text file of 64 KiB with a zero byte after the sample. -/
def longText : Buffer := List.replicate SAMPLE 0x61++[0]

theorem longText_detected : Unsigned longText ∧
    detectAllowedMime longText "text/plain" = some .textPlain := by
  have hcons : longText = 0x61::(List.replicate (SAMPLE-1) 0x61++[0]) := by
    have hsample : SAMPLE = (SAMPLE-1)+1 := by decide
    rw [longText,hsample,List.replicate_succ]
    rfl
  have hunsigned : Unsigned longText := by
    rw [hcons]
    exact unsigned_of_letter _
  have htake : longText.take SAMPLE = List.replicate SAMPLE 0x61 := by
    simp [longText]
  have hlong : ¬ longText.length ≤ SAMPLE := by
    simp [longText]
  refine ⟨hunsigned,(detect_unsigned hunsigned (by decide)).mpr ⟨by simp [longText],?_⟩⟩
  rw [isProbablyUtf8Text_iff,if_neg hlong,htake]
  refine ⟨fun hzero => by simpa using List.eq_of_mem_replicate hzero,[],?_⟩
  rw [List.append_nil]
  refine Utf8.wellFormed_of_lt fun b hb => ?_
  obtain ⟨c,hc,rfl⟩ := List.mem_map.mp hb
  rw [List.eq_of_mem_replicate hc]
  decide

/-- A zero byte after the sample goes unseen. -/
theorem plain_text_not_exact : ¬ ∀ (buf : Buffer) (declaredMime : String), Unsigned buf →
    declaredType declaredMime = AllowedMime.textPlain.text →
    (detectAllowedMime buf declaredMime = some .textPlain ↔
      buf ≠ [] ∧ 0 ∉ buf ∧ Utf8.WellFormed (Buffer.bytes buf)) := by
  intro h
  obtain ⟨hunsigned,hdetected⟩ := longText_detected
  have hzero := ((h longText "text/plain" hunsigned (by decide)).mp hdetected).2.1
  exact hzero (by simp [longText])

end ZevraServer.Uploading
