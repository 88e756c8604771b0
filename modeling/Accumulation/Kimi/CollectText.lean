/-
# Accumulation.Kimi.CollectText — the text that `CollectMessage` collects.

The getter of a delta's content is the one that a whole completion has: it trims what it returns.  A
blank at either end of a delta is lost, so the text depends on where the stream was cut, unless no
delta begins or ends with a blank (`sameText_iff`).
-/
import Accumulation.Kimi.Chunk

namespace Accumulation.Kimi

/-- The content of the first delta, as it was sent. -/
def Chunk.text (c : Chunk) : String :=
  match c.getDelta.bind (·.content) with
  | none => ""
  | some content => content.text

/-- A chunk that may carry text but carries no fragments of tool calls. -/
def Chunk.TextOnly (c : Chunk) : Prop :=
  ∃ delta, c.getDelta = some delta ∧ delta.toolCalls.getD [] = []

def wholeText (chunks : List Chunk) : String := String.join (chunks.map Chunk.text)

/-- The chunks are collected, and the text is this one. -/
def Collected (grow : ℕ → ℕ) (chunks : List Chunk) (text : String) : Prop :=
  ∃ message content, collectMessage grow chunks = some message ∧
    message.content = some content ∧ content.text = text

/-! ## Trimming -/

theorem length_trimSpace_le (s : String) : (trimSpace s).length ≤ s.length := by
  simpa [trimSpace, String.length_toList] using Go.length_trimSpace_le s.toList

theorem trimSpace_eq_of_length {s : String} (h : (trimSpace s).length = s.length) :
    trimSpace s = s := by
  have hlist : Go.trimSpace s.toList = s.toList := by
    apply Go.trimSpace_eq_of_length
    simpa [trimSpace, String.length_toList] using h
  rw [trimSpace, hlist, String.ofList_toList]

@[simp]
theorem trimSpace_empty : trimSpace "" = "" := by decide

theorem length_join_trimSpace_le (texts : List String) :
    (String.join (texts.map trimSpace)).length ≤ (String.join texts).length := by
  induction texts with
  | nil => simp
  | cons text texts ih =>
    rw [List.map_cons, String.join_cons, String.join_cons, String.length_append,
      String.length_append]
    exact Nat.add_le_add (length_trimSpace_le text) ih

/-- **Trimmed pieces** make up the same text only if there was nothing to trim: what one piece has
lost no other one has in excess. -/
theorem join_trimSpace_eq_iff (texts : List String) :
    String.join (texts.map trimSpace) = String.join texts ↔
      ∀ text ∈ texts, trimSpace text = text := by
  constructor
  · intro hjoin
    induction texts with
    | nil => simp
    | cons text texts ih =>
      rw [List.map_cons, String.join_cons, String.join_cons] at hjoin
      have hlen := congrArg String.length hjoin
      rw [String.length_append, String.length_append] at hlen
      have hhead := length_trimSpace_le text
      have htail := length_join_trimSpace_le texts
      have htrim : trimSpace text = text := trimSpace_eq_of_length (by omega)
      rw [htrim] at hjoin
      rintro t (_ | ⟨_, ht⟩)
      · exact htrim
      · exact ih ((String.append_right_inj text).mp hjoin) t ht
  · intro hall
    rw [List.map_congr_left hall, List.map_id']

/-! ## Chunks of text -/

section Text

variable {grow : ℕ → ℕ} {chunk : Chunk} {chunks : List Chunk}

theorem Chunk.getDeltaContent_eq {delta : Message} (h : chunk.getDelta = some delta) :
    chunk.getDeltaContent = some (trimSpace chunk.text) := by
  have hdelta : chunk.getDeltaByIndex 0 = some delta := h
  rcases hcontent : delta.content with _ | content
  · simp [getDeltaContent, getDeltaContentByIndex, hdelta, text, h, hcontent]
  · simp [getDeltaContent, getDeltaContentByIndex, hdelta, text, h, hcontent]

/-- **One chunk** adds its trimmed text and leaves the tool calls alone. -/
theorem collectChunk_textOnly (grow : ℕ → ℕ) (h : chunk.TextOnly) (c : Collecting) :
    ∃ c', collectChunk grow c chunk = some c' ∧ c'.entries = c.entries ∧
      c'.messageContentBuilder = c.messageContentBuilder ++ trimSpace chunk.text := by
  obtain ⟨delta, hdelta, hcalls⟩ := h
  have hrole : chunk.getDeltaRole = some (trimSpace delta.role) := by
    simp [Chunk.getDeltaRole, Chunk.getDeltaRoleByIndex,
      show chunk.getDeltaByIndex 0 = _ from hdelta]
  have htoolCalls : chunk.getToolCalls = some delta.toolCalls := by
    simp [Chunk.getToolCalls, Chunk.getToolCallsByIndex,
      show chunk.getDeltaByIndex 0 = _ from hdelta]
  simp only [collectChunk, hrole, Chunk.getDeltaContent_eq hdelta, htoolCalls, Option.bind_eq_bind,
    Option.bind_some]
  rcases hsome : delta.toolCalls with _ | toolCalls
  · refine ⟨_, rfl, ?_, ?_⟩
    · by_cases hr : trimSpace delta.role = "" <;> simp [hr, Collecting.entries]
    · by_cases hr : trimSpace delta.role = "" <;> simp [hr]
  · obtain rfl : toolCalls = [] := by simpa [hsome] using hcalls
    refine ⟨_, rfl, ?_, ?_⟩
    · by_cases hr : trimSpace delta.role = "" <;> simp [hr, Collecting.entries]
    · by_cases hr : trimSpace delta.role = "" <;> simp [hr]

/-- **A run over chunks of text.** -/
theorem foldlM_collectChunk_textOnly (grow : ℕ → ℕ) (h : ∀ chunk ∈ chunks, chunk.TextOnly)
    (c : Collecting) :
    ∃ c', chunks.foldlM (collectChunk grow) c = some c' ∧ c'.entries = c.entries ∧
      c'.messageContentBuilder =
        c.messageContentBuilder ++ String.join ((chunks.map Chunk.text).map trimSpace) := by
  induction chunks generalizing c with
  | nil => exact ⟨c, rfl, rfl, by simp⟩
  | cons chunk chunks ih =>
    obtain ⟨c', hchunk, hentries, hcontent⟩ := collectChunk_textOnly grow (h chunk (by simp)) c
    obtain ⟨c'', hchunks, hentries', hcontent'⟩ := ih (fun d hd => h d (by simp [hd])) c'
    refine ⟨c'', ?_, hentries'.trans hentries, ?_⟩
    · simp [hchunk, hchunks]
    · rw [hcontent', hcontent]
      simp [String.append_assoc]

/-- **What is collected** is the trimmed texts, one after the other. -/
theorem collectMessage_textOnly (h : ∀ chunk ∈ chunks, chunk.TextOnly) (text : String) :
    Collected grow chunks text ↔ String.join ((chunks.map Chunk.text).map trimSpace) = text := by
  obtain ⟨c, hrun, hentries, hcontent⟩ := foldlM_collectChunk_textOnly grow h .init
  have hnone : giveArguments c.entries c.toolCallArgumentsBuilders.elems = some [] := by
    rw [hentries]
    rfl
  rw [show Collecting.init.messageContentBuilder = "" from rfl, String.empty_append] at hcontent
  rw [← hcontent]
  simp [Collected, collectMessage, hrun, Collecting.message, hnone]

theorem collected_iff (h : ∀ chunk ∈ chunks, chunk.TextOnly) :
    Collected grow chunks (wholeText chunks) ↔
      ∀ chunk ∈ chunks, trimSpace chunk.text = chunk.text := by
  rw [collectMessage_textOnly h, wholeText, join_trimSpace_eq_iff]
  simp

end Text

/-- **Two ways to cut a text** both give it back exactly when no piece of either begins or ends with
a blank. -/
theorem sameText_iff (grow : ℕ → ℕ) (text : String) (chunks chunks' : List Chunk)
    (h : ∀ chunk ∈ chunks ++ chunks', chunk.TextOnly) (hcut : wholeText chunks = text)
    (hcut' : wholeText chunks' = text) :
    (Collected grow chunks text ∧ Collected grow chunks' text) ↔
      ∀ chunk ∈ chunks ++ chunks', trimSpace chunk.text = chunk.text := by
  have hleft : ∀ chunk ∈ chunks, chunk.TextOnly :=
    fun chunk hchunk => h chunk (List.mem_append_left _ hchunk)
  have hright : ∀ chunk ∈ chunks', chunk.TextOnly :=
    fun chunk hchunk => h chunk (List.mem_append_right _ hchunk)
  conv_lhs => rw [← hcut]
  rw [collected_iff hleft, hcut, ← hcut', collected_iff hright]
  simp [or_imp, forall_and]

/-- A chunk with one choice that carries some text. -/
def Chunk.ofText (text : String) : Chunk :=
  ⟨[⟨"0", some { Message.zero with content := some ⟨text, none, none⟩ }, ""⟩]⟩

theorem Chunk.ofText_textOnly (text : String) : (ofText text).TextOnly := ⟨_, rfl, rfl⟩

/-- Without blanks the cut does not matter. -/
theorem sameText_iff_once : Collected id [.ofText "once"] "once" ∧
    Collected id [.ofText "on", ⟨[]⟩, .ofText "ce"] "once" := by
  refine (sameText_iff id "once" [.ofText "once"] [.ofText "on", ⟨[]⟩, .ofText "ce"]
    ?_ (by decide) (by decide)).mpr ?_
  · intro chunk hchunk
    fin_cases hchunk
    · exact Chunk.ofText_textOnly _
    · exact Chunk.ofText_textOnly _
    · exact ⟨_, rfl, rfl⟩
    · exact Chunk.ofText_textOnly _
  · decide

/-- The blank between two words is lost if the stream is cut there. -/
theorem text_cut : wholeText [.ofText "two", .ofText " words"] = "two words" ∧
    Collected id [.ofText "two words"] "two words" ∧
    ¬ Collected id [.ofText "two", .ofText " words"] "two words" := by
  refine ⟨by decide, ?_, ?_⟩
  · rw [collectMessage_textOnly (by simpa using Chunk.ofText_textOnly _)]
    decide
  · rw [collectMessage_textOnly (by simpa using ⟨Chunk.ofText_textOnly _, Chunk.ofText_textOnly _⟩)]
    decide

end Accumulation.Kimi
