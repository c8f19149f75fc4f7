import ImageBuild.Proofs.Progress.Pages
import Mathlib.Data.Finset.Card
import Mathlib.Logic.Relation

/-!
# `ImageBuild.Proofs.Progress.Numbers`: the number of a vertex

A vertex has no number of its own. The renderer gives it one when it first hears of its digest, in
an update of the vertex, a counter or a log, and that number stands before every line about the
vertex. The next number is read off how many vertices the renderer remembers, so the numbers are
right only as long as it forgets none and remembers none twice.

`IsNumbering` says what the numbers are without the renderer: those from 1 to how many different
digests there were, each for one digest, in the order in which the digests first came. One more
digest keeps this if it gets the next number (`IsNumbering.concat`), and it does as long as the
renderer remembers as many vertices as there were different digests. Both together are the
invariant, `HasNumbered`.

The renderer may write to something that refuses a line. It then gives up the batch, and its next
batch goes on with what it remembers. `Refuses` is what an update leaves of it in that case,
`Step` is one move of a renderer that may be refused, and `reaches_render` says that `render` is
what the moves come to if nothing is refused. `numbers_follow_appearance` is about every moment
that the moves reach, and about every later one.
-/

set_option autoImplicit false

namespace ImageBuild.Progress

/-- The digest of the vertex that an update is about. -/
def Update.digest : Update → String
  | .vertex v => v.digest
  | .counter c => c.vertex
  | .log l => l.vertex

/-! ### Numbers in the order of appearance -/

/-- Each of some digests, which may come more than once, has a number: the numbers start at 1,
leave none out and follow the order in which the digests first come. -/
structure IsNumbering (digests : List String) (number? : String → Option Nat) : Prop where
  /-- The digests that have a number are these. -/
  isSome_iff : ∀ digest, (number? digest).isSome = true ↔ digest ∈ digests
  /-- The numbers go from 1 to how many different digests there are. -/
  dense : ∀ k, (∃ digest, number? digest = some k) ↔ 1 ≤ k ∧ k ≤ digests.toFinset.card
  /-- No two digests have the same number. -/
  unique : ∀ digest digest' k, number? digest = some k → number? digest' = some k →
    digest = digest'
  /-- The digest that comes first has the smaller number. -/
  order : ∀ digest digest' k k', number? digest = some k → number? digest' = some k' →
    (k < k' ↔ digests.idxOf digest < digests.idxOf digest')

/-- Of one more digest there is one more if it is new. -/
theorem card_toFinset_concat (digests : List String) (digest : String) :
    (digests ++ [digest]).toFinset.card =
    if digest ∈ digests then digests.toFinset.card else digests.toFinset.card + 1 := by
  have hinsert : (digests ++ [digest]).toFinset = insert digest digests.toFinset := by
    ext d
    simp
  rw [hinsert, Finset.card_insert_eq_ite]
  simp only [List.mem_toFinset]

/-- The numbers once one more digest was seen: without a number it gets the next one. -/
def withNext (digests : List String) (number? : String → Option Nat) (digest : String) :
    String → Option Nat :=
  fun d => (number? d).or (if d = digest then some (digests.toFinset.card + 1) else none)

namespace IsNumbering

variable {digests : List String} {number? : String → Option Nat} {d digest : String} {k : Nat}

/-- Nothing has a number. -/
theorem nil : IsNumbering [] fun _ => none where
  isSome_iff _ := by simp
  dense k := by
    constructor
    · rintro ⟨_, ⟨⟩⟩
    · intro hk
      have hnone : k ≤ 0 := hk.2
      omega
  unique _ _ _ h := by cases h
  order _ _ _ _ h := by cases h

/-- Only what has appeared has a number. -/
theorem mem (h : IsNumbering digests number?) (hk : number? digest = some k) : digest ∈ digests :=
  (h.isSome_iff digest).mp (Option.isSome_of_eq_some hk)

/-- A digest that was there before has its number and leaves the others theirs. -/
theorem concat_of_mem (h : IsNumbering digests number?) (hmem : digest ∈ digests) :
    IsNumbering (digests ++ [digest]) number? := by
  -- The digests are the same, and no digest first comes at another place.
  have hsame : ∀ d, d ∈ digests ++ [digest] ↔ d ∈ digests := by
    intro d
    rw [List.mem_append, List.mem_singleton]
    constructor
    · rintro (hd | rfl)
      · exact hd
      · exact hmem
    · exact Or.inl
  refine ⟨?_, ?_, h.unique, ?_⟩
  · intro d
    rw [hsame, h.isSome_iff]
  · intro k
    rw [List.toFinset.ext hsame, h.dense]
  · intro d d' k k' hk hk'
    rw [List.idxOf_append_of_mem (h.mem hk), List.idxOf_append_of_mem (h.mem hk')]
    exact h.order d d' k k' hk hk'

/-- After a new digest, every digest has the number that it had, and the new one the next. -/
theorem withNext_eq_some_iff (h : IsNumbering digests number?) (hnew : digest ∉ digests) :
    withNext digests number? digest d = some k ↔
      number? d = some k ∨ d = digest ∧ k = digests.toFinset.card + 1 := by
  unfold withNext
  by_cases hd : d = digest
  · subst hd
    have hnone : number? d = none := by
      rw [← Option.not_isSome_iff_eq_none, h.isSome_iff]
      exact hnew
    rw [hnone, if_pos rfl]
    simp [eq_comm]
  · rw [if_neg hd, Option.or_none]
    simp [hd]

/-- A new digest has the next number and comes after all others. -/
theorem concat_of_notMem (h : IsNumbering digests number?) (hnew : digest ∉ digests) :
    IsNumbering (digests ++ [digest]) (withNext digests number? digest) := by
  have hcard : (digests ++ [digest]).toFinset.card = digests.toFinset.card + 1 := by
    rw [card_toFinset_concat, if_neg hnew]
  -- An old digest stands where it stood, and before the new one.
  have hold : ∀ {d k}, number? d = some k → k ≤ digests.toFinset.card ∧
      (digests ++ [digest]).idxOf d = digests.idxOf d ∧ digests.idxOf d < digests.length := by
    intro d k hk
    exact ⟨((h.dense k).mp ⟨d, hk⟩).2, List.idxOf_append_of_mem (h.mem hk),
      List.idxOf_lt_length_iff.mpr (h.mem hk)⟩
  have hlast : (digests ++ [digest]).idxOf digest = digests.length := by
    rw [List.idxOf_append_of_notMem hnew, List.idxOf_cons_self, Nat.add_zero]
  refine ⟨?_, ?_, ?_, ?_⟩
  · intro d
    simp only [Option.isSome_iff_exists, h.withNext_eq_some_iff hnew]
    rw [List.mem_append, List.mem_singleton, ← h.isSome_iff, Option.isSome_iff_exists, exists_or]
    simp
  · intro k
    simp only [h.withNext_eq_some_iff hnew, exists_or, exists_eq_left, h.dense, hcard]
    omega
  · intro d d' k hk hk'
    rw [h.withNext_eq_some_iff hnew] at hk hk'
    obtain hwas | ⟨rfl, rfl⟩ := hk
    · obtain hwas' | ⟨rfl, rfl⟩ := hk'
      · exact h.unique d d' k hwas hwas'
      · have hle := (hold hwas).1
        omega
    · obtain hwas' | ⟨rfl, -⟩ := hk'
      · have hle := (hold hwas').1
        omega
      · rfl
  · intro d d' k k' hk hk'
    rw [h.withNext_eq_some_iff hnew] at hk hk'
    obtain hwas | ⟨rfl, rfl⟩ := hk
    · obtain hwas' | ⟨rfl, rfl⟩ := hk'
      · rw [(hold hwas).2.1, (hold hwas').2.1]
        exact h.order d d' k k' hwas hwas'
      · have hbefore := hold hwas
        omega
    · obtain hwas' | ⟨rfl, rfl⟩ := hk'
      · have hbefore := hold hwas'
        omega
      · exact iff_of_false (lt_irrefl _) (lt_irrefl _)

/-- One more digest gets the next number unless it has one. -/
theorem concat (h : IsNumbering digests number?) (digest : String) :
    IsNumbering (digests ++ [digest]) (withNext digests number? digest) := by
  by_cases hmem : digest ∈ digests
  · -- A digest that has a number does not get another.
    have hsame : withNext digests number? digest = number? := by
      funext d
      unfold withNext
      by_cases hd : d = digest
      · subst hd
        exact Option.or_of_isSome ((h.isSome_iff d).mpr hmem)
      · rw [if_neg hd, Option.or_none]
    rw [hsame]
    exact h.concat_of_mem hmem
  · exact h.concat_of_notMem hmem

end IsNumbering

/-! ### The numbers that a renderer gives -/

namespace Renderer

variable {r r' : Renderer} {u : Update} {digests : List String} {digest : String} {k : Nat}

/-- The number of a digest, if the renderer has heard of it. -/
def number? (r : Renderer) (digest : String) : Option Nat := (r.find? digest).map (·.number)

/-- Taking a note gives the next number to a digest that has none, and changes no other. -/
theorem number?_note (r : Renderer) (digest d : String) : (r.note digest).number? d =
    (r.number? d).or (if d = digest then some (r.lines.length + 1) else none) := by
  unfold number?
  rw [find?_note, Option.map_or]
  congr 1
  split <;> rfl

/-- Flags are no numbers. -/
theorem number?_mark (r : Renderer) (digest : String) (started finished : Bool) :
    (r.mark digest started finished).number? = r.number? := by
  funext d
  unfold number?
  rw [find?_mark, Option.map_map]
  congr 1
  funext l
  dsimp only [Function.comp_apply]
  split <;> rfl

/-- Taking a note makes a line for a digest that has none. -/
theorem length_lines_note (r : Renderer) (digest : String) : (r.note digest).lines.length =
    if (r.number? digest).isSome then r.lines.length else r.lines.length + 1 := by
  unfold note number?
  cases r.find? digest with
  | some seen => rfl
  | none => exact List.length_append

/-- Marking a vertex makes no line. -/
theorem length_lines_mark (r : Renderer) (digest : String) (started finished : Bool) :
    (r.mark digest started finished).lines.length = r.lines.length := List.length_map _

/-- The renderer has numbered these digests, and it remembers as many vertices as there are
different ones. -/
structure HasNumbered (digests : List String) (r : Renderer) : Prop where
  numbering : IsNumbering digests r.number?
  count : r.lines.length = digests.toFinset.card

/-- A new renderer has given no numbers. -/
theorem hasNumbered_new : HasNumbered [] new := ⟨.nil, rfl⟩

/-- A digest of which the renderer hears is numbered. -/
theorem HasNumbered.note (h : HasNumbered digests r) (digest : String) :
    HasNumbered (digests ++ [digest]) (r.note digest) := by
  -- The next number is one more than the vertices remembered, and there are as many as digests.
  have hnumber? : (r.note digest).number? = withNext digests r.number? digest := by
    funext d
    rw [number?_note, h.count]
    rfl
  refine ⟨hnumber? ▸ h.numbering.concat digest, ?_⟩
  rw [length_lines_note, card_toFinset_concat, h.count]
  simp only [h.numbering.isSome_iff]

/-- Marking a vertex changes no number. -/
theorem HasNumbered.mark (h : HasNumbered digests r) (digest : String) (started finished : Bool) :
    HasNumbered digests (r.mark digest started finished) := by
  refine ⟨?_, ?_⟩
  · rw [number?_mark]
    exact h.numbering
  · rw [length_lines_mark]
    exact h.count

/-- The renderer has heard of a digest, and at most the flags of the digest are others. -/
inductive Hears (r : Renderer) (digest : String) : Renderer → Prop
  | noted : Hears r digest (r.note digest)
  | marked (started finished : Bool) : Hears r digest
    ((r.note digest).mark digest started finished)

/-- Hearing of a digest keeps the numbering, with this digest behind the others. -/
theorem Hears.hasNumbered (h : r.Hears digest r') (hr : HasNumbered digests r) :
    HasNumbered (digests ++ [digest]) r' := by
  cases h with
  | noted => exact hr.note digest
  | marked started finished => exact (hr.note digest).mark digest started finished

/-- A number that was given stays. -/
theorem Hears.number?_eq_some (h : r.Hears digest r') {d : String} (hk : r.number? d = some k) :
    r'.number? d = some k := by
  have hnoted : (r.note digest).number? d = some k := by
    rw [number?_note, hk, Option.some_or]
  cases h with
  | noted => exact hnoted
  | marked started finished =>
    rw [number?_mark]
    exact hnoted

/-- Rendering an update is hearing of its digest. -/
theorem hears_renderUpdate (r : Renderer) (u : Update) :
    r.Hears u.digest (r.renderUpdate u).2 := by
  cases u with
  | vertex v =>
    obtain ⟨_, -, hrender⟩ := renderVertex_eq r v
    show r.Hears v.digest (r.renderVertex v).2
    rw [hrender]
    exact .marked _ _
  | counter c => exact .noted
  | log l => exact .noted

/-- The number of a digest is that of its line. -/
theorem number?_of_find? {seen : VertexLine} (h : r.find? digest = some seen) :
    r.number? digest = some seen.number := by
  unfold number?
  rw [h]
  rfl

/-- A digest of which the renderer has just heard has a number, and it is the one that is
written. -/
theorem number?_note_self (r : Renderer) (digest : String) :
    (r.note digest).number? digest = some ((r.note digest).number digest) := by
  obtain ⟨seen, hseen, -⟩ := exists_find?_note r digest
  have hnumber : (r.note digest).number digest = seen.number := by
    unfold number
    rw [hseen]
    rfl
  rw [hnumber, number?_of_find? hseen]

/-- Every line about a vertex starts with the number that the vertex then has. -/
theorem exists_number_renderUpdate (r : Renderer) (u : Update) :
    ∃ k, (r.renderUpdate u).2.number? u.digest = some k ∧
      ∀ text ∈ (r.renderUpdate u).1, ∃ said, text = line k said := by
  -- Each kind of update writes its own lines, all of them behind the number of its vertex.
  cases u with
  | vertex v =>
    obtain ⟨seen, hseen, hrender⟩ := renderVertex_eq r v
    refine ⟨seen.number, ?_, ?_⟩
    · show (r.renderVertex v).2.number? v.digest = some seen.number
      rw [hrender, number?_mark]
      exact number?_of_find? hseen
    · intro text htext
      have hlines : text ∈ (r.renderVertex v).1 := htext
      rw [hrender, List.mem_append] at hlines
      obtain hname | houtcome := hlines
      · split at hname
        · exact ⟨v.name, List.mem_singleton.mp hname⟩
        · cases hname
      · split at houtcome
        · cases houtcome
        · obtain ⟨said, -, rfl⟩ := List.mem_map.mp houtcome
          exact ⟨said, rfl⟩
  | counter c =>
    refine ⟨_, number?_note_self r c.vertex, ?_⟩
    intro text htext
    exact ⟨_, List.mem_singleton.mp htext⟩
  | log l =>
    refine ⟨_, number?_note_self r l.vertex, ?_⟩
    intro text htext
    obtain ⟨said, -, rfl⟩ := List.mem_map.mp htext
    exact ⟨String.ofList said, rfl⟩

/-! ### Moves of a renderer that may be refused a line -/

/-- Where a renderer is with the batches that it was given. -/
structure Moment where
  /-- The updates of which it has heard, those of all batches so far. -/
  heard : List Update
  /-- The updates of the present batch that are to come. -/
  left : List Update
  renderer : Renderer

/-- The renderer that has been given nothing. -/
def start : Moment := ⟨[], [], new⟩

/-- What an update leaves of a renderer if a line about it is refused. A flag is raised before its
line is written, and nothing is done after a refused line. So the renderer is the one after the
update, unless the name of a vertex was refused: its outcome was then not looked at. -/
inductive Refuses (r : Renderer) : Update → Renderer → Prop
  | name {v : Vertex} : r.hasStarted v.digest = false → begins v = true →
    Refuses r (.vertex v) ((r.note v.digest).mark v.digest true (r.hasFinished v.digest))
  | outcome {v : Vertex} : r.hasFinished v.digest = false → ends v = true →
    Refuses r (.vertex v) (r.renderVertex v).2
  | counter (c : Counter) : Refuses r (.counter c) (r.renderCounter c).2
  | log {l : Log Nat} : (r.renderLog l).1 ≠ [] → Refuses r (.log l) (r.renderLog l).2

/-- One move: a batch is given, or an update of it is rendered. The present batch is left where a
line is refused. -/
inductive Step : Moment → Moment → Prop
  | batch {heard : List Update} {r : Renderer} (b : SolveStatus) :
    Step ⟨heard, [], r⟩ ⟨heard, b.updates, r⟩
  | update {heard left : List Update} {u : Update} {r : Renderer} :
    Step ⟨heard, u :: left, r⟩ ⟨heard ++ [u], left, (r.renderUpdate u).2⟩
  | refused {heard left : List Update} {u : Update} {r r' : Renderer} : Refuses r u r' →
    Step ⟨heard, u :: left, r⟩ ⟨heard ++ [u], [], r'⟩

/-- The second moment comes after the first, or is the first. -/
abbrev Reaches : Moment → Moment → Prop := Relation.ReflTransGen Step

/-- The numbers at one moment, and what becomes of them until a later one. -/
structure KeepsNumbers (m m' : Moment) : Prop where
  /-- The digests of all updates so far are numbered as they first came. -/
  numbering : IsNumbering (m.heard.map Update.digest) m.renderer.number?
  /-- A digest keeps its number. -/
  stays : ∀ digest k, m.renderer.number? digest = some k → m'.renderer.number? digest = some k
  /-- Between two batches, to render the next one leads to where all its updates were heard of:
  those of its vertices, then its counters, then its logs. -/
  render : m.left = [] → ∀ b : SolveStatus,
    Reaches m ⟨m.heard ++ b.updates, [], (m.renderer.render b).2⟩
  /-- Every line that an update writes starts with the number that its vertex then has. -/
  lines : ∀ u, ∃ k, (m.renderer.renderUpdate u).2.number? u.digest = some k ∧
    ∀ text ∈ (m.renderer.renderUpdate u).1, ∃ said, text = line k said

variable {m m' : Moment}

/-- The output may refuse an update, and its digest is heard all the same. -/
theorem Refuses.hears (h : Refuses r u r') : r.Hears u.digest r' := by
  cases h with
  | name => exact .marked _ _
  | @outcome v => exact hears_renderUpdate r (.vertex v)
  | counter c => exact .noted
  | log => exact .noted

/-- A move gives a batch or makes the renderer hear of the digest of one more update. -/
theorem Step.hears (h : Step m m') : m'.heard = m.heard ∧ m'.renderer = m.renderer ∨
    ∃ u, m'.heard = m.heard ++ [u] ∧ m.renderer.Hears u.digest m'.renderer := by
  cases h with
  | batch b => exact Or.inl ⟨rfl, rfl⟩
  | @update heard left u r => exact Or.inr ⟨u, rfl, hears_renderUpdate r u⟩
  | @refused heard left u r r' hrefused => exact Or.inr ⟨u, rfl, hrefused.hears⟩

/-- Every step keeps the numbering. -/
theorem Step.hasNumbered (h : Step m m')
    (hm : HasNumbered (m.heard.map Update.digest) m.renderer) :
    HasNumbered (m'.heard.map Update.digest) m'.renderer := by
  obtain ⟨hheard, hrenderer⟩ | ⟨u, hheard, hhears⟩ := h.hears
  · rw [hheard, hrenderer]
    exact hm
  · rw [hheard, List.map_append]
    exact hhears.hasNumbered hm

/-- No step changes a number. -/
theorem Step.number?_eq_some (h : Step m m') (hk : m.renderer.number? digest = some k) :
    m'.renderer.number? digest = some k := by
  obtain ⟨-, hrenderer⟩ | ⟨u, -, hhears⟩ := h.hears
  · rw [hrenderer]
    exact hk
  · exact hhears.number?_eq_some hk

/-- At every moment the numbers follow the order of appearance. -/
theorem hasNumbered_of_reaches (h : Reaches start m) :
    HasNumbered (m.heard.map Update.digest) m.renderer := by
  induction h with
  | refl => exact hasNumbered_new
  | tail _ hstep ih => exact hstep.hasNumbered ih

/-- A number that was given is kept. -/
theorem number?_of_reaches (h : Reaches m m') (hk : m.renderer.number? digest = some k) :
    m'.renderer.number? digest = some k := by
  induction h with
  | refl => exact hk
  | tail _ hstep ih => exact hstep.number?_eq_some ih

/-- If nothing is refused, a list of updates is rendered one by one. -/
theorem reaches_after (heard us left : List Update) (r : Renderer) :
    Reaches ⟨heard, us ++ left, r⟩ ⟨heard ++ us, left, r.after us⟩ := by
  induction us generalizing heard r with
  | nil =>
    rw [List.append_nil]
    exact .refl
  | cons u rest ih =>
    have hlater := ih (heard ++ [u]) (r.renderUpdate u).2
    rw [List.append_assoc] at hlater
    exact hlater.head .update

/-- If nothing is refused, the moves of a batch come to what `render` leaves. -/
theorem reaches_render (hleft : m.left = []) (b : SolveStatus) :
    Reaches m ⟨m.heard ++ b.updates, [], (m.renderer.render b).2⟩ := by
  obtain ⟨heard, left, r⟩ := m
  obtain rfl : left = [] := hleft
  have hupdates := reaches_after heard b.updates [] r
  rw [List.append_nil] at hupdates
  rw [render_eq]
  exact hupdates.head (.batch b)

/-- At every moment the digests of the updates so far have the numbers from 1 on, without a gap,
in the order in which the digests first came, and they keep them at every later moment. -/
theorem numbers_follow_appearance (h : Reaches start m) (h' : Reaches m m') :
    KeepsNumbers m m' := by
  refine ⟨(hasNumbered_of_reaches h).numbering, ?_, ?_, ?_⟩
  · intro digest k hk
    exact number?_of_reaches h' hk
  · intro hleft b
    exact reaches_render hleft b
  · intro u
    exact exists_number_renderUpdate m.renderer u

/-- A vertex that is in the cache. -/
def cachedBase : Vertex := ⟨"a", [], "base", true, none, none, ""⟩

/-- A batch about three vertices. -/
def threeVertexes : SolveStatus :=
  ⟨[cachedBase], [⟨"layer", "b", "pull", 1, 2, ⟨19723, 0, 0⟩, none, none⟩],
    [⟨"c", 1, Utf8.encode "ok", ⟨19723, 0, 0⟩⟩]⟩

/-- The name of the first of them is refused, so the renderer never hears of the other two. -/
def brokenOff : Moment := ⟨[.vertex cachedBase], [], (new.note "a").mark "a" true false⟩

/-- A batch about the same vertices, with the log and the counter the other way round. -/
def otherWayRound : SolveStatus :=
  ⟨[cachedBase], [⟨"layer", "c", "pull", 1, 2, ⟨19723, 0, 0⟩, none, none⟩],
    [⟨"b", 1, Utf8.encode "ok", ⟨19723, 0, 0⟩⟩]⟩

/-- The renderer goes on with that batch, and this time nothing is refused. -/
def wentOn : Moment :=
  ⟨brokenOff.heard ++ otherWayRound.updates, [], (brokenOff.renderer.render otherWayRound).2⟩

/-- The first vertex keeps its number, and the other two are numbered as they come in the second
batch. -/
theorem brokenOff_numbers_follow : Reaches start brokenOff ∧ Reaches brokenOff wentOn ∧
    KeepsNumbers brokenOff wentOn ∧ brokenOff.renderer.number? "a" = some 1 ∧
    wentOn.renderer.number? "c" = some 2 ∧ wentOn.renderer.number? "b" = some 3 := by
  have hrefused : Refuses new (.vertex cachedBase) brokenOff.renderer := .name rfl rfl
  have hbroken : Reaches start brokenOff :=
    Relation.ReflTransGen.tail (.single (.batch threeVertexes)) (.refused hrefused)
  have hwent : Reaches brokenOff wentOn := reaches_render rfl otherWayRound
  exact ⟨hbroken, hwent, numbers_follow_appearance hbroken hwent, by decide +kernel⟩

end Renderer
end ImageBuild.Progress
