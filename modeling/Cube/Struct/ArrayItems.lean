import Cube.Json.Cut
import Cube.Struct.ArrayText

/-!
# Arrays of strings, there and back

The text of an array of strings is made JSON, parsed, printed and stripped again.

* `getjsonstr_array`: the JSON array has the items that are not empty, in quotes.
* `items_quoted`: the parser makes of it what is in the quotes, or nothing.
* `stripjsonarraychar_quoted`: the stripping takes the quotes and brackets off.
* `convertsBack_iff`: when the array comes back.
-/

namespace Cube.Struct

open Lib Json

/-! ## The text of an array -/

/-- A comma-separated text of items, with a comma behind the last or without. -/
def IsTextOf (items : List (List Char)) (text : List Char) : Prop :=
  text = [','].intercalate items ∨ text = items.flatMap (· ++ [','])

/-- The items that are not empty. -/
def inhabited (items : List (List Char)) : List (List Char) := items.filter (· ≠ [])

/-- Items in quotes with commas between them; there are `n` items before them. -/
def quotedFrom : Nat → List (List Char) → List Char
  | _, [] => []
  | n, item :: items =>
    (if n > 0 then [','] else []) ++ '"' :: (item ++ '"' :: quotedFrom (n + 1) items)

/-- An item that needs no care: it has no quote, comma or bracket. -/
def PlainItem (item : List Char) : Prop :=
  ∀ c ∈ item, c ∉ ['"', ',', '[', ']', '\x00']

/-- The text of items, the last of which has no comma behind it. -/
def joined (items : List (List Char)) (last : List Char) : List Char :=
  items.flatMap (· ++ [',']) ++ last

theorem joined_cons (item : List Char) (items : List (List Char)) (last : List Char) :
    joined (item :: items) last = item ++ ',' :: joined items last := by
  simp [joined]

theorem intercalate_snoc (items : List (List Char)) (last : List Char) :
    [','].intercalate (items ++ [last]) = joined items last := by
  induction items with
  | nil => simp [joined]
  | cons item items ih =>
    rw [joined_cons, ← ih, List.cons_append, List.intercalate_cons_of_ne_nil (by simp)]
    simp

variable {text item raw content after e : List Char} {contents : List (List Char)}

/-- A text of items is one with the last item apart. -/
theorem IsTextOf.exists_joined {items : List (List Char)}
    (h : IsTextOf items text) : ∃ front last, text = joined front last ∧
      (items = front ++ [last] ∨ items = front ∧ last = []) := by
  rcases h with rfl | rfl
  · rcases List.eq_nil_or_concat' items with rfl | ⟨front, last, rfl⟩
    · exact ⟨[], [], rfl, .inr ⟨rfl, rfl⟩⟩
    · exact ⟨front, last, intercalate_snoc front last, .inl rfl⟩
  · exact ⟨items, [], by rw [joined, List.append_nil], .inr ⟨rfl, rfl⟩⟩

/-! ## From the text to JSON -/

theorem arrayLoop_item (hitem : PlainItem item) (text : List Char) (n : Nat) :
    arrayLoop (item ++ text) true n =
      (item ++ (arrayLoop text true n).1, (arrayLoop text true n).2) := by
  induction item with
  | nil => rfl
  | cons c item ih =>
    have hc := hitem c List.mem_cons_self
    have hsplit : ¬ (c = '\x00' ∨ c = ',') := by
      rintro (rfl | rfl) <;> simp at hc
    rw [List.cons_append, arrayLoop, if_neg hsplit, if_pos rfl,
      ih fun d hd => hitem d (List.mem_cons_of_mem _ hd)]
    rfl

/-- An item at the start of a text opens a quote. -/
theorem arrayLoop_open (hitem : PlainItem item) (hne : item ≠ []) (text : List Char) (n : Nat) :
    arrayLoop (item ++ text) false n =
      ((if n > 0 then [','] else []) ++ '"' :: (item ++ (arrayLoop text true (n + 1)).1),
        (arrayLoop text true (n + 1)).2) := by
  obtain ⟨c, item, rfl⟩ := List.exists_cons_of_ne_nil hne
  have hc := hitem c List.mem_cons_self
  have hsplit : ¬ (c = '\x00' ∨ c = ',') := by
    rintro (rfl | rfl) <;> simp at hc
  rw [List.cons_append, arrayLoop, if_neg hsplit, if_neg (by decide),
    arrayLoop_item fun d hd => hitem d (List.mem_cons_of_mem _ hd)]
  rfl

/-- A comma in an item closes its quote. -/
theorem arrayLoop_comma (text : List Char) (n : Nat) :
    arrayLoop (',' :: text) true n =
      ('"' :: (arrayLoop text false n).1, (arrayLoop text false n).2) := by
  rw [arrayLoop, if_pos (.inr rfl)]
  rfl

theorem arrayLoop_joined {items : List (List Char)} (hitems : ∀ item ∈ items, PlainItem item)
    (last : List Char) (n : Nat) :
    arrayLoop (joined items last) false n =
      (quotedFrom n (inhabited items) ++ (arrayLoop last false (n + (inhabited items).length)).1,
        (arrayLoop last false (n + (inhabited items).length)).2) := by
  induction items generalizing n with
  | nil => rfl
  | cons item items ih =>
    have hitem := hitems item List.mem_cons_self
    have hrest := ih fun x hx => hitems x (List.mem_cons_of_mem _ hx)
    rw [joined_cons]
    rcases eq_or_ne item [] with rfl | hne
    · have hskip : inhabited ([] :: items) = inhabited items := rfl
      rw [List.nil_append, arrayLoop, if_pos (.inr rfl), hrest, hskip]
      rfl
    · have hkeep : inhabited (item :: items) = item :: inhabited items :=
        List.filter_cons_of_pos (by simpa using hne)
      rw [arrayLoop_open hitem hne, arrayLoop_comma, hrest, hkeep, quotedFrom, List.length_cons]
      simp only [List.append_assoc, List.cons_append, Nat.add_assoc, Nat.add_comm 1]

theorem quotedFrom_append (n : Nat) (a b : List (List Char)) :
    quotedFrom n (a ++ b) = quotedFrom n a ++ quotedFrom (n + a.length) b := by
  induction a generalizing n with
  | nil => rfl
  | cons item a ih =>
    rw [List.cons_append, quotedFrom, quotedFrom, ih, List.length_cons]
    simp only [List.append_assoc, List.cons_append, Nat.add_assoc, Nat.add_comm 1]

/-- The JSON array of a text has the items that are not empty, in quotes. -/
theorem getjsonstr_array {items : List (List Char)} (hitems : ∀ item ∈ items, PlainItem item)
    {last : List Char} (hlast : PlainItem last) (hne : joined items last ≠ []) :
    getjsonstr (joined items last) .array =
      .done ('[' :: (quotedFrom 0 (inhabited (items ++ [last])) ++ [']', '\x00'])) := by
  have hloop := arrayLoop_joined hitems last 0
  rcases List.eq_nil_or_concat' last with rfl | ⟨front, c, rfl⟩
  · -- The text ends with the comma behind its last item.
    have hcomma : (joined items []).getLast? = some ',' := by
      rcases List.eq_nil_or_concat' items with rfl | ⟨front, item, rfl⟩
      · exact absurd rfl hne
      · simp [joined]
    have hskip : inhabited (items ++ [[]]) = inhabited items := by
      simp [inhabited]
    rw [getjsonstr, hcomma, hloop, hskip]
    simp [arrayLoop]
  · have hc := hlast c (by simp)
    have hend : (joined items (front ++ [c])).getLast? = some c := by
      simp [joined]
    have hkeep : inhabited (items ++ [front ++ [c]]) = inhabited items ++ [front ++ [c]] := by
      simp [inhabited]
    have hopen := arrayLoop_open hlast (by simp) [] (0 + (inhabited items).length)
    rw [List.append_nil] at hopen
    rw [getjsonstr, hend, hloop, hkeep, hopen, quotedFrom_append]
    have hnul : c ≠ '\x00' := by
      rintro rfl
      simp at hc
    have hcomma : c ≠ ',' := by
      rintro rfl
      simp at hc
    simp [arrayLoop, quotedFrom, hnul, hcomma]

/-! ## From JSON to nodes -/

/-- The node of a string in an array. -/
def stringNode (content : List Char) : JsonNode :=
  { elemType := .string, isValue := Container.array.isValue, name := [], valueStr := some content }

/-- A quote in the characters of a string has a backslash before it. -/
theorem chars_quote (h : Chars raw content) {a b : List Char} (heq : raw = a ++ '"' :: b) :
    (∃ front, a = front ++ ['\\']) ∧ ∃ content, Chars b content := by
  induction h generalizing a with
  | nil => simp at heq
  | @plain c _ _ hq _ _ _ ih =>
    rcases a with _ | ⟨d, a⟩
    · exact absurd (List.cons.inj heq).1 hq
    · obtain ⟨⟨front, rfl⟩, hb⟩ := ih (List.cons.inj heq).2
      exact ⟨⟨d :: front, rfl⟩, hb⟩
  | @escaped c raw _ _ hraw ih =>
    rcases a with _ | ⟨d, _ | ⟨e, a⟩⟩
    · exact absurd (List.cons.inj heq).1 (by decide)
    · obtain ⟨hd, htail⟩ := List.cons.inj heq
      rw [← (List.cons.inj htail).2]
      exact ⟨⟨[], by rw [← hd, List.nil_append]⟩, _, hraw⟩
    · obtain ⟨⟨front, rfl⟩, hb⟩ := ih (List.cons.inj (List.cons.inj heq).2).2
      exact ⟨⟨d :: e :: front, rfl⟩, hb⟩

variable {f : Option Int}

/-- The text of a value is that of a string, or has no quotes in it. -/
theorem leaf_cases {k : Container} {name token : List Char} {node : JsonNode}
    (h : Leaf f k name token after node) :
    (∃ raw content, token = '"' :: (raw ++ ['"']) ∧ Chars raw content ∧ raw.length + 2 ≤ 512 ∧
        node =
          { elemType := .string, isValue := k.isValue, name := name, valueStr := some content }) ∨
      '"' ∉ token ∧ ',' ∉ token := by
  have hdigits : ∀ {ds : List Char} {value : Nat}, Digits ds value → '"' ∉ ds ∧ ',' ∉ ds :=
    fun hds => ⟨fun hmem => absurd (hds.2.1 _ hmem) (by decide),
      fun hmem => absurd (hds.2.1 _ hmem) (by decide)⟩
  have hword : ∀ word ∈ trueWords ++ falseWords, '"' ∉ word ∧ ',' ∉ word := by decide
  cases h with
  | string hchars hlen => exact .inl ⟨_, _, rfl, hchars, hlen, rfl⟩
  | num hnum _ _ _ _ =>
    cases hnum with
    | pos hds => exact .inr (hdigits hds)
    | neg hds => exact .inr (by simpa using hdigits hds)
  | trueWord hmem => exact .inr (hword _ (List.mem_append_left _ hmem))
  | falseWord hmem _ => exact .inr (hword _ (List.mem_append_right _ hmem))

/-- A text in which the quotes around the items are the wrong way: the next quote ends an
    item. No bracket stands before it. -/
def Flipped (e text : List Char) : Prop :=
  ∃ w n items, '"' ∉ w ∧ ']' ∉ w ∧ (∀ item ∈ items, PlainItem item) ∧
    text = w ++ '"' :: (quotedFrom (n + 1) items ++ ']' :: e)

theorem Flipped.drop {a : List Char} (ha : '"' ∉ a) (h : Flipped e (a ++ text)) :
    Flipped e text := by
  obtain ⟨w, n, items, hw, hw', hitems, heq⟩ := h
  rcases List.append_eq_append_iff.1 heq with ⟨as, rfl, htext⟩ | ⟨bs, rfl, htext⟩
  · exact ⟨as, n, items, fun hmem => hw (List.mem_append_right _ hmem),
      fun hmem => hw' (List.mem_append_right _ hmem), hitems, htext⟩
  · rcases bs with _ | ⟨b, bs⟩
    · exact ⟨[], n, items, by simp, by simp, hitems, htext.symm⟩
    · rw [← (List.cons.inj htext).1] at ha
      simp at ha

/-- A string over such a text has the comma between two items in it. -/
theorem Flipped.string (he : '"' ∉ e) (hchars : Chars raw content)
    (h : Flipped e ('"' :: (raw ++ '"' :: text))) : Flipped e text := by
  obtain ⟨w, n, items, hw, -, hitems, heq⟩ := h
  rcases w with _ | ⟨c, w⟩
  · have htail := (List.cons.inj heq).2
    rcases items with _ | ⟨item, items⟩
    · have hmem : '"' ∈ raw ++ '"' :: text := by simp
      rw [htail] at hmem
      simp [quotedFrom, he] at hmem
    · rw [quotedFrom, if_pos (Nat.succ_pos n)] at htail
      simp only [List.cons_append, List.nil_append, List.append_assoc] at htail
      rcases raw with _ | ⟨c, _ | ⟨d, raw⟩⟩
      · exact absurd (List.cons.inj htail).1 (by decide)
      · have hitem := hitems item List.mem_cons_self
        refine ⟨item, n + 1, items, fun hmem => ?_, fun hmem => ?_,
          fun x hx => hitems x (List.mem_cons_of_mem _ hx),
          (List.cons.inj (List.cons.inj htail).2).2⟩
        · exact absurd (hitem _ hmem) (by simp)
        · exact absurd (hitem _ hmem) (by simp)
      · obtain ⟨hc, hd⟩ := List.cons.inj htail
        obtain ⟨hd, -⟩ := List.cons.inj hd
        obtain ⟨⟨front, hfront⟩, -⟩ := chars_quote (a := [c]) (b := raw) hchars (by rw [hd]; rfl)
        have hback : c = '\\' := by
          rcases front with _ | ⟨x, front⟩
          · exact (List.cons.inj hfront).1
          · simp at hfront
        exact absurd (hc.symm.trans hback) (by decide)
  · rw [← (List.cons.inj heq).1] at hw
    simp at hw

theorem Flipped.lead {e lead name text : List Char} {k : Container} (he : '"' ∉ e)
    (hlead : Lead k lead name) (h : Flipped e (lead ++ text)) : Flipped e text := by
  cases hlead with
  | element => exact h
  | @member raw _ before after hchars _ hbefore hafter =>
    have hblank : ∀ {l : List Char}, (∀ c ∈ l, isIgnoreChar c) → '"' ∉ l :=
      fun hl hmem => absurd (hl _ hmem) (by decide)
    have hsplit : ('"' :: (raw ++ '"' :: (before ++ ':' :: after))) ++ text =
        '"' :: (raw ++ '"' :: ((before ++ ':' :: after) ++ text)) := by simp
    rw [hsplit] at h
    exact (h.string he hchars).drop (by simp [hblank hbefore, hblank hafter])

theorem Flipped.leaf {name token : List Char} {k : Container} {node : JsonNode}
    (he : '"' ∉ e) (hleaf : Leaf f k name token text node) (h : Flipped e (token ++ text)) :
    Flipped e text := by
  rcases leaf_cases hleaf with ⟨raw, content, rfl, hchars, -⟩ | ⟨hquote, -⟩
  · have hsplit : ('"' :: (raw ++ ['"'])) ++ text = '"' :: (raw ++ '"' :: text) := by simp
    rw [hsplit] at h
    exact h.string he hchars
  · exact h.drop hquote

/-- The quotes stay the wrong way up to the end, so that no array ends. -/
theorem Flipped.items {e text after : List Char} {k : Container} {nodes : List JsonNode}
    (he : '"' ∉ e) (h : Items f k text nodes after) (hflip : Flipped e text) :
    k = .map ∧ Flipped e after := by
  induction h with
  | @close k after =>
    rcases k with _ | _
    · exact ⟨rfl, hflip.drop (show '"' ∉ [Container.map.closing] by decide)⟩
    · obtain ⟨w, n, items, -, hw, -, heq⟩ := hflip
      rcases w with _ | ⟨c, w⟩
      · exact absurd (List.cons.inj heq).1 (by decide)
      · rw [← (List.cons.inj heq).1] at hw
        simp [Container.closing] at hw
  | @blank _ c text _ _ hc _ ih =>
    have hquote : '"' ∉ [c] := by
      rintro hmem
      rw [← List.mem_singleton.1 hmem] at hc
      cases hc
    exact ih (hflip.drop (a := [c]) hquote)
  | leaf hlead hleaf _ ih => exact ih ((hflip.lead he hlead).leaf he hleaf)
  | @nest _ k' _ _ inner _ _ _ _ hlead _ _ ihinner ih =>
    have hopen : '"' ∉ [k'.opening] := by cases k' <;> decide
    exact ih (ihinner ((hflip.lead he hlead).drop (a := [k'.opening]) hopen)).2

/-- A comma between the items of an array is skipped. -/
theorem items_comma {nodes : List JsonNode}
    (h : Items f .array (',' :: text) nodes after) : Items f .array text nodes after := by
  generalize heq : ',' :: text = all at h
  cases h with
  | close => exact absurd (List.cons.inj heq).1 (by decide)
  | blank _ hrest => rwa [(List.cons.inj heq).2]
  | @leaf _ _ _ token _ _ _ _ hlead hleaf _ =>
    cases hlead with
    | element =>
      obtain ⟨c, token, rfl⟩ := List.exists_cons_of_ne_nil hleaf.exists_token.1
      have hc := (List.cons.inj heq).1
      rcases leaf_cases hleaf with ⟨_, _, htoken, -⟩ | ⟨-, hcomma⟩
      · exact absurd (hc.trans (List.cons.inj htoken).1) (by decide)
      · exact absurd List.mem_cons_self (hc ▸ hcomma)
  | @nest _ k' _ _ _ _ _ _ _ hlead _ _ =>
    cases hlead with
    | element => cases k' <;> exact absurd (List.cons.inj heq).1 (by decide)

/-- At a quote there is a string. -/
theorem items_string {body : List Char} {nodes : List JsonNode}
    (h : Items f .array ('"' :: body) nodes after) :
    ∃ raw content text nodes', body = raw ++ '"' :: text ∧ Chars raw content ∧
      raw.length + 2 ≤ 512 ∧ nodes = stringNode content :: nodes' ∧
      Items f .array text nodes' after := by
  generalize heq : '"' :: body = all at h
  cases h with
  | close => exact absurd (List.cons.inj heq).1 (by decide)
  | blank hc _ =>
    rw [← (List.cons.inj heq).1] at hc
    cases hc
  | @leaf _ _ _ token text _ _ _ hlead hleaf hrest =>
    cases hlead with
    | element =>
      rcases leaf_cases hleaf with ⟨raw, content, rfl, hchars, hlen, rfl⟩ | ⟨hquote, -⟩
      · refine ⟨raw, content, text, _, ?_, hchars, hlen, rfl, hrest⟩
        simpa using (List.cons.inj heq).2
      · obtain ⟨c, token, rfl⟩ := List.exists_cons_of_ne_nil hleaf.exists_token.1
        rw [← (List.cons.inj heq).1] at hquote
        exact absurd List.mem_cons_self hquote
  | @nest _ k' _ _ _ _ _ _ _ hlead _ _ =>
    cases hlead with
    | element => cases k' <;> exact absurd (List.cons.inj heq).1 (by decide)

/-- The parser makes of items in quotes strings of their characters. -/
theorem items_quoted (he : '"' ∉ e) {items : List (List Char)}
    (hitems : ∀ item ∈ items, PlainItem item) {n : Nat} {nodes : List JsonNode}
    (h : Items f .array (quotedFrom n items ++ ']' :: e) nodes after) :
    ∃ contents, List.Forall₂ Chars items contents ∧ nodes = contents.map stringNode ∧
      after = e ∧ ∀ item ∈ items, item.length + 2 ≤ 512 := by
  induction items generalizing n nodes with
  | nil =>
    have hclose : Items f .array (Container.array.closing :: e) nodes after := h
    obtain ⟨-, rfl, rfl⟩ := hclose.closing_inv
    exact ⟨[], .nil, rfl, rfl, by simp⟩
  | cons item items ih =>
    have hitem := hitems item List.mem_cons_self
    have hrest := fun x hx => hitems x (List.mem_cons_of_mem item hx)
    have hquote : '"' ∉ item := fun hmem => absurd (hitem _ hmem) (by simp)
    have hopen : Items f .array ('"' :: (item ++ '"' :: (quotedFrom (n + 1) items ++ ']' :: e)))
        nodes after := by
      rw [quotedFrom] at h
      split_ifs at h with hn
      · exact items_comma (by simpa using h)
      · simpa using h
    obtain ⟨raw, content, text, nodes', hbody, hchars, hlen, rfl, htext⟩ := items_string hopen
    -- What follows if the string ends where the item does.
    have hends : raw = item → text = quotedFrom (n + 1) items ++ ']' :: e →
        ∃ contents, List.Forall₂ Chars (item :: items) contents ∧
          stringNode content :: nodes' = contents.map stringNode ∧ after = e ∧
          ∀ item' ∈ item :: items, item'.length + 2 ≤ 512 := by
      rintro rfl rfl
      obtain ⟨contents, hcontents, rfl, rfl, hall⟩ := ih hrest htext
      exact ⟨content :: contents, .cons hchars hcontents, rfl, rfl,
        List.forall_mem_cons.2 ⟨hlen, hall⟩⟩
    rcases List.append_eq_append_iff.1 hbody with ⟨bs, hraw, htail⟩ | ⟨as, hraw, htail⟩
    · rcases bs with _ | ⟨b, bs⟩
      · exact hends (by simpa using hraw) (List.cons.inj htail).2.symm
      · -- A quote is taken as a character: the string goes on over the next one.
        obtain ⟨rfl, hrest'⟩ := List.cons.inj htail
        obtain ⟨-, content', hb⟩ := chars_quote hchars hraw
        have hflip : Flipped e ('"' :: (bs ++ '"' :: text)) :=
          ⟨[], n, items, by simp, by simp, hrest, by rw [hrest']; rfl⟩
        exact absurd ((hflip.string he hb).items he htext).1 (by decide)
    · rcases as with _ | ⟨a, as⟩
      · exact hends (by simpa using hraw.symm) (List.cons.inj htail).2
      · rw [hraw, ← (List.cons.inj htail).1] at hquote
        simp at hquote

theorem not_nul_quotedFrom {items : List (List Char)} (hitems : ∀ item ∈ items, PlainItem item)
    (n : Nat) : '\x00' ∉ quotedFrom n items := by
  induction items generalizing n with
  | nil => simp [quotedFrom]
  | cons item items ih =>
    intro hmem
    have hitem := hitems item List.mem_cons_self
    have hrest := ih (fun x hx => hitems x (List.mem_cons_of_mem _ hx)) (n + 1)
    rw [quotedFrom] at hmem
    have hin : '\x00' ∈ item := by
      split_ifs at hmem <;> simpa [hrest] using hmem
    exact absurd (hitem _ hin) (by simp)

/-- What the parser makes of the JSON array, if anything. -/
theorem jsonSolveStr_quoted {items : List (List Char)} (hitems : ∀ item ∈ items, PlainItem item)
    {n : Nat} {root : JsonNode}
    (h : jsonSolveStr ('[' :: (quotedFrom 0 items ++ [']', '\x00'])) = .done (n, some root)) :
    ∃ contents, List.Forall₂ Chars items contents ∧
      root = Container.array.rootNode.extend (contents.map stringNode) ∧
      ∀ item ∈ items, item.length + 2 ≤ 512 := by
  have hnul : '\x00' ∉ '[' :: (quotedFrom 0 items ++ [']']) := by
    have hquoted := not_nul_quotedFrom hitems 0
    simp [hquoted]
  -- What a document that starts like the array says of it.
  have hdocument : ∀ {f : Option Int} {doc e : List Char} {root' : JsonNode} (rest), '"' ∉ e →
      doc ++ rest = '[' :: (quotedFrom 0 items ++ ']' :: e) → Document f doc root' →
      rest = e ∧ ∃ contents, List.Forall₂ Chars items contents ∧
        root' = Container.array.rootNode.extend (contents.map stringNode) ∧
        ∀ item ∈ items, item.length + 2 ≤ 512 := by
    intro f doc e root' rest he hdoc ⟨blanks, k, text, nodes, hblanks, hblank, hread, hroot⟩
    subst hblanks
    rcases blanks with _ | ⟨c, blanks⟩
    · obtain ⟨hk, htext⟩ := List.cons.inj hdoc
      obtain rfl : k = .array := by
        cases k
        · exact absurd hk (by decide)
        · rfl
      have hall : text ++ rest = quotedFrom 0 items ++ ']' :: e := htext
      have happ := hread.append rest
      rw [hall] at happ
      obtain ⟨contents, hcontents, rfl, hrest, hlen⟩ := items_quoted he hitems happ
      exact ⟨hrest, contents, hcontents, hroot, hlen⟩
    · rw [List.cons_append, List.cons_append] at hdoc
      have hc := hblank c List.mem_cons_self
      rw [(List.cons.inj hdoc).1] at hc
      exact absurd hc (by decide)
  have hsplit : '[' :: (quotedFrom 0 items ++ [']', '\x00']) =
      '[' :: (quotedFrom 0 items ++ [']']) ++ ['\x00'] := by simp
  rw [hsplit] at h
  rcases jsonSolveStr_cases hnul with ⟨doc, rest, root', hdoc, hroot', hsolve⟩ |
    ⟨hcut, _⟩ | hsolve | ⟨-, _, hsolve⟩ | ⟨-, hsolve⟩
  · obtain ⟨-, contents, hcontents, hroot, hlen⟩ := hdocument rest List.not_mem_nil hdoc.symm hroot'
    rw [hsolve, Outcome.done.injEq, Prod.mk.injEq, Option.some.injEq] at h
    exact ⟨contents, hcontents, h.2 ▸ hroot, hlen⟩
  · -- No brackets are open behind the array.
    exfalso
    rcases hcut with hblank | ⟨ks, hks, -, root', hroot'⟩
    · exact absurd (hblank '[' List.mem_cons_self) (by decide)
    · have hclosers : '"' ∉ ks.map Container.closing := by
        intro hmem
        obtain ⟨k, -, hk⟩ := List.mem_map.1 hmem
        cases k <;> exact absurd hk (by decide)
      obtain ⟨hnil, -⟩ := hdocument [] hclosers (by simp) hroot'
      exact hks (List.map_eq_nil_iff.1 hnil.symm)
  all_goals
    rw [hsolve] at h
    cases h

/-- The nodes of strings that the parser can build. -/
theorem built_stringNode (h : ∀ content ∈ contents, content.length + 2 ≤ 512 ∧ '\x00' ∉ content) :
    ∀ node ∈ contents.map stringNode, Built .array node := by
  intro node hnode
  obtain ⟨content, hcontent, rfl⟩ := List.mem_map.1 hnode
  exact .string rfl (h content hcontent).1 (h content hcontent).2

/-- The text of strings in an array. -/
theorem rootText_strings (h : ∀ content ∈ contents, content.length + 2 ≤ 512) :
    rootText .array (contents.map stringNode) = '[' :: (quotedFrom 0 contents ++ [']']) := by
  have hvalue : ∀ content ∈ contents,
      valueText (stringNode content) = '"' :: (content ++ ['"']) := by
    intro content hcontent
    have htake : content.take (DIGEST_SIZE * 16) = content :=
      List.take_of_length_le (show content.length ≤ 512 from Nat.le_of_add_right_le (h _ hcontent))
    rw [stringNode, valueText, Option.getD_some, htake]
  have hrest : ∀ {contents : List (List Char)} (n : Nat),
      (∀ content ∈ contents, valueText (stringNode content) = '"' :: (content ++ ['"'])) →
      restText false (contents.map stringNode) = quotedFrom (n + 1) contents := by
    intro contents
    induction contents with
    | nil => exact fun n _ => restText_nil false
    | cons content contents ih =>
      intro n hall
      rw [List.map_cons, restText_cons, ih (n + 1) fun c hc => hall c (List.mem_cons_of_mem _ hc),
        hall content List.mem_cons_self, quotedFrom, if_pos (Nat.succ_pos n)]
      simp [nameText]
  rw [rootText]
  rcases contents with _ | ⟨content, contents⟩
  · rw [List.map_nil, itemsText_nil]
    rfl
  · have hnamed : Container.array.named = false := rfl
    rw [List.map_cons, itemsText_cons, hvalue content List.mem_cons_self, hnamed,
      hrest 0 fun c hc => hvalue c (List.mem_cons_of_mem _ hc), quotedFrom]
    simp [nameText, Container.opening, Container.closing]

/-! ## From JSON to the text -/

/-- The characters of an item in quotes are written. -/
theorem stripLoop_chars (hitem : '"' ∉ item ∧ ']' ∉ item) (n : Nat)
    (out gap : List Char) (hgap : gap ≠ []) (rest : List Char) :
    ∃ gap', gap' ≠ [] ∧
      stripLoop (item.length + n) (out.length + gap.length) ⟨.inElem, gap.length, 1, 1⟩
          (out ++ (gap ++ (item ++ rest))) =
        stripLoop n ((out ++ item).length + gap'.length) ⟨.inElem, gap'.length, 1, 1⟩
          ((out ++ item) ++ (gap' ++ rest)) := by
  induction item generalizing out gap with
  | nil => exact ⟨gap, hgap, by simp⟩
  | cons c item ih =>
    obtain ⟨g, gap, rfl⟩ := List.exists_cons_of_ne_nil hgap
    obtain ⟨hquote, hclose⟩ := hitem
    rw [List.mem_cons, not_or] at hquote hclose
    have hturn : stripTurn c ⟨.inElem, (g :: gap).length, 1, 1⟩ =
        some (⟨.inElem, (g :: gap).length, 1, 1⟩, some c) := by
      simp only [stripTurn, if_neg (Ne.symm hquote.1), if_neg (Ne.symm hclose.1)]
      split_ifs <;> simp_all
    obtain ⟨gap', hgap', hloop⟩ :=
      ih ⟨hquote.2, hclose.2⟩ (out ++ [c]) (gap ++ [c]) (by simp)
    refine ⟨gap', hgap', ?_⟩
    have hlen : (g :: gap).length = (gap ++ [c]).length := by simp
    have hcons : c :: item ++ rest = c :: (item ++ rest) := rfl
    rw [List.length_cons, Nat.add_right_comm, hcons, stripLoop_write hturn rfl (by simp), hlen,
      Option.getD_some, hloop]
    simp only [List.append_assoc, List.singleton_append]

/-- An item in quotes is written with a comma behind it. -/
theorem stripLoop_item (hitem : '"' ∉ item ∧ ']' ∉ item) (n : Nat)
    (out gap : List Char) (rest : List Char) :
    ∃ gap', gap' ≠ [] ∧
      stripLoop (item.length + n + 2) (out.length + gap.length) ⟨.inBracket, gap.length, 1, 0⟩
          (out ++ (gap ++ '"' :: (item ++ '"' :: rest))) =
        stripLoop n ((out ++ (item ++ [','])).length + gap'.length) ⟨.inBracket, gap'.length, 1, 0⟩
          ((out ++ (item ++ [','])) ++ (gap' ++ rest)) := by
  have hopen : stripTurn '"' ⟨.inBracket, gap.length, 1, 0⟩ =
      some (⟨.inElem, (gap ++ ['"']).length, 1, 1⟩, none) := by
    simp [stripTurn]
  obtain ⟨gap', hgap', hloop⟩ :=
    stripLoop_chars hitem (n + 1) out (gap ++ ['"']) (by simp) ('"' :: rest)
  obtain ⟨g, gap', rfl⟩ := List.exists_cons_of_ne_nil hgap'
  have hclose : stripTurn '"' ⟨.inElem, (g :: gap').length, 1, 1⟩ =
      some (⟨.inBracket, (g :: gap').length, 1, 0⟩, some ',') := by
    simp [stripTurn]
  refine ⟨gap' ++ ['"'], by simp, ?_⟩
  have hlen : (g :: gap').length = (gap' ++ ['"']).length := by simp
  rw [stripLoop_move hopen (by simp), Nat.add_assoc, hloop,
    stripLoop_write hclose rfl (by simp), hlen, Option.getD_some]
  simp only [List.append_assoc]

/-- The stripping of items in quotes writes them with a comma behind each. -/
theorem stripLoop_quoted
    (h : ∀ content ∈ contents, '"' ∉ content ∧ ']' ∉ content) (n : Nat) (out gap : List Char)
    (hgap : gap ≠ []) :
    ∃ more, stripLoop (quotedFrom n contents ++ [']']).length (out.length + gap.length)
        ⟨.inBracket, gap.length, 1, 0⟩ (out ++ (gap ++ (quotedFrom n contents ++ [']']))) =
      .done (((out ++ joined contents []).length : Nat), out ++ joined contents [] ++ more) := by
  induction contents generalizing n out gap with
  | nil =>
    obtain ⟨g, gap, rfl⟩ := List.exists_cons_of_ne_nil hgap
    have hturn : stripTurn ']' ⟨.inBracket, (g :: gap).length, 1, 0⟩ =
        some (⟨.finish, (g :: gap).length + 1, 0, 0⟩, none) := by
      simp [stripTurn]
    refine ⟨'\x00' :: (gap ++ [']']), ?_⟩
    rw [quotedFrom, List.nil_append, List.length_singleton, stripLoop_finish hturn rfl rfl]
    simp [joined]
  | cons content contents ih =>
    have hrest := fun c hc => h c (List.mem_cons_of_mem content hc)
    -- The item, after the comma before it.
    have hitem : ∀ gap : List Char, ∃ more,
        stripLoop ('"' :: (content ++ '"' :: (quotedFrom (n + 1) contents ++ [']']))).length
            (out.length + gap.length) ⟨.inBracket, gap.length, 1, 0⟩
            (out ++ (gap ++ '"' :: (content ++ '"' :: (quotedFrom (n + 1) contents ++ [']'])))) =
          .done (((out ++ joined (content :: contents) []).length : Nat),
            out ++ joined (content :: contents) [] ++ more) := by
      intro gap
      obtain ⟨gap', hgap', hloop⟩ := stripLoop_item (h content List.mem_cons_self)
        (quotedFrom (n + 1) contents ++ [']']).length out gap (quotedFrom (n + 1) contents ++ [']'])
      obtain ⟨more, hmore⟩ := ih hrest (n + 1) (out ++ (content ++ [','])) gap' hgap'
      refine ⟨more, ?_⟩
      have hlen : ('"' :: (content ++ '"' :: (quotedFrom (n + 1) contents ++ [']']))).length =
          content.length + (quotedFrom (n + 1) contents ++ [']']).length + 2 := by
        simp only [List.length_cons, List.length_append]
        omega
      rw [hlen, hloop, hmore, joined_cons]
      simp only [List.append_assoc, List.cons_append, List.nil_append]
    rw [quotedFrom]
    split_ifs with hn
    · obtain ⟨more, hmore⟩ := hitem (gap ++ [','])
      refine ⟨more, ?_⟩
      have hcomma : stripTurn ',' ⟨.inBracket, gap.length, 1, 0⟩ =
          some (⟨.inBracket, (gap ++ [',']).length, 1, 0⟩, none) := by
        simp [stripTurn]
      simp only [List.append_assoc, List.cons_append, List.nil_append] at hmore ⊢
      rw [List.length_cons, stripLoop_move hcomma (by simp)]
      simpa using hmore
    · simpa using hitem gap

/-- The stripping takes the brackets and quotes off. -/
theorem stripjsonarraychar_quoted (h : ∀ content ∈ contents, '"' ∉ content ∧ ']' ∉ content)
    (htext : text = '[' :: (quotedFrom 0 contents ++ [']'])) :
    ∃ more, stripjsonarraychar text text.length =
      .done (((joined contents []).length : Nat), joined contents [] ++ more) := by
  obtain ⟨more, hmore⟩ := stripLoop_quoted h 0 [] ['['] (by simp)
  refine ⟨more, ?_⟩
  have hopen : stripTurn '[' ⟨.start, 0, 0, 0⟩ = some (⟨.inBracket, 1, 1, 0⟩, none) := by
    simp [stripTurn]
  let none : List Char := []
  have hmove : stripLoop ((quotedFrom 0 contents ++ [']']).length + 1) (none.length + none.length)
        ⟨.start, 0, 0, 0⟩ (none ++ (none ++ '[' :: (quotedFrom 0 contents ++ [']']))) =
      stripLoop (quotedFrom 0 contents ++ [']']).length (none.length + (none ++ ['[']).length)
        ⟨.inBracket, 1, 1, 0⟩ (none ++ ((none ++ ['[']) ++ (quotedFrom 0 contents ++ [']']))) :=
    stripLoop_move hopen (by decide) _
  rw [htext, stripjsonarraychar, List.length_cons]
  exact hmove.trans hmore

/-! ## There and back -/

/-- The array comes back: the parsed node is printed and stripped to a text of the same
    items. -/
def ConvertsBack (items : List (List Char)) (text : List Char) : Prop :=
  ∃ json n root printed ret stripped,
    getjsonstr text .array = .done json ∧ jsonSolveStr json = .done (n, some root) ∧
      jsonPrintStr root = .done printed ∧
      stripjsonarraychar printed printed.length = .done (ret, stripped) ∧ 0 ≤ ret ∧
      IsTextOf items (stripped.take ret.toNat)

/-- The way back from strings that the parser has built. -/
theorem back_of_contents (h : ∀ content ∈ contents, content.length + 2 ≤ 512 ∧ PlainItem content) :
    ∃ printed more,
      jsonPrintStr (Container.array.rootNode.extend (contents.map stringNode)) = .done printed ∧
        stripjsonarraychar printed printed.length =
          .done (((joined contents []).length : Nat), joined contents [] ++ more) := by
  have hout : ∀ content ∈ contents, '"' ∉ content ∧ ']' ∉ content ∧ '\x00' ∉ content := by
    refine fun content hcontent => ⟨fun hmem => ?_, fun hmem => ?_, fun hmem => ?_⟩ <;>
      exact absurd ((h content hcontent).2 _ hmem) (by simp)
  have hbuilt := built_stringNode fun content hc => ⟨(h content hc).1, (hout content hc).2.2⟩
  obtain ⟨more, hmore⟩ := stripjsonarraychar_quoted
    (fun content hc => ⟨(hout content hc).1, (hout content hc).2.1⟩)
    (rootText_strings fun content hc => (h content hc).1)
  exact ⟨_, more, (jsonPrintStr_root hbuilt).1, hmore⟩

/-- Items without commas are told apart by the text that they are joined to. -/
theorem joined_inj {a b : List (List Char)} {last last' : List Char}
    (ha : ∀ item ∈ a, ',' ∉ item) (hb : ∀ item ∈ b, ',' ∉ item) (hlast : ',' ∉ last)
    (hlast' : ',' ∉ last') (h : joined a last = joined b last') : a = b ∧ last = last' := by
  induction a generalizing b with
  | nil =>
    rcases b with _ | ⟨item, b⟩
    · exact ⟨rfl, h⟩
    · have htext : last = item ++ ',' :: joined b last' := h.trans (joined_cons _ _ _)
      rw [htext] at hlast
      simp at hlast
  | cons item a ih =>
    rcases b with _ | ⟨item', b⟩
    · have htext : last' = item ++ ',' :: joined a last := h.symm.trans (joined_cons _ _ _)
      rw [htext] at hlast'
      simp at hlast'
    · rw [joined_cons, joined_cons] at h
      have hitem := ha item List.mem_cons_self
      have hitem' := hb item' List.mem_cons_self
      obtain ⟨rfl, hrest⟩ : item = item' ∧ joined a last = joined b last' := by
        rcases List.append_eq_append_iff.1 h with ⟨as, has, htail⟩ | ⟨as, has, htail⟩ <;>
          rcases as with _ | ⟨c, as⟩
        · exact ⟨by simpa using has.symm, (List.cons.inj htail).2⟩
        · rw [has, ← (List.cons.inj htail).1] at hitem'
          simp at hitem'
        · exact ⟨by simpa using has, (List.cons.inj htail).2.symm⟩
        · rw [has, ← (List.cons.inj htail).1] at hitem
          simp at hitem
      obtain ⟨rfl, hends⟩ := ih (fun x hx => ha x (List.mem_cons_of_mem _ hx))
        (fun x hx => hb x (List.mem_cons_of_mem _ hx)) hrest
      exact ⟨rfl, hends⟩

/-- The text that comes back has the items that are not empty, which are all of them or
    all but the last. -/
theorem isTextOf_inhabited {items : List (List Char)} (hne : items ≠ [])
    (h : ∀ item ∈ items.dropLast, item ≠ []) : IsTextOf items (joined (inhabited items) []) := by
  rcases List.eq_nil_or_concat' items with rfl | ⟨front, last, rfl⟩
  · exact absurd rfl hne
  · rw [List.dropLast_concat] at h
    have hfront : front.filter (· ≠ []) = front :=
      List.filter_eq_self.2 fun item hitem => by simpa using h item hitem
    rcases eq_or_ne last [] with rfl | hlast
    · refine .inl ?_
      rw [intercalate_snoc, inhabited, List.filter_append, hfront]
      simp
    · refine .inr ?_
      rw [inhabited, List.filter_append, hfront, joined, List.append_nil]
      simp [hlast]

/-- The characters that stand for as many are not escaped. -/
theorem not_backslash (h : Chars raw content)
    (hlen : raw.length ≤ content.length) : '\\' ∉ raw := by
  induction h with
  | nil => simp
  | plain _ hb _ _ ih => simpa [Ne.symm hb] using ih (Nat.le_of_succ_le_succ hlen)
  | escaped _ hraw _ =>
    have hle := hraw.length_le
    simp only [List.length_cons] at hlen
    omega

theorem chars_subset (h : Chars raw content) : content ⊆ raw := by
  induction h with
  | nil => simp
  | plain _ _ _ _ ih => exact List.cons_subset_cons _ ih
  | escaped _ _ ih =>
    exact fun c hc => List.mem_cons_of_mem _ (List.cons_subset_cons _ ih hc)

/-- The item that a string stands for. -/
theorem exists_item {items : List (List Char)} (h : List.Forall₂ Chars items contents)
    (hmem : content ∈ contents) : ∃ item ∈ items, Chars item content := by
  induction h with
  | nil => simp at hmem
  | @cons item content' items _ hchars _ ih =>
    rcases List.mem_cons.1 hmem with rfl | hmem
    · exact ⟨item, List.mem_cons_self, hchars⟩
    · obtain ⟨item', hitem', hchars'⟩ := ih hmem
      exact ⟨item', List.mem_cons_of_mem _ hitem', hchars'⟩

theorem mem_inhabited {items : List (List Char)} :
    item ∈ inhabited items ↔ item ∈ items ∧ item ≠ [] := by
  simp [inhabited]

/-- An array that comes back has no backslash and no long item in it, and no item that is
    empty but the last: the characters of each item stand for themselves. -/
theorem conditions_of_back {items : List (List Char)} (hitems : ∀ item ∈ items, PlainItem item)
    (hcontents : List.Forall₂ Chars (inhabited items) contents)
    (hback : IsTextOf items (joined contents [])) :
    (∀ item ∈ items.dropLast, item ≠ []) ∧ ∀ item ∈ items, '\\' ∉ item := by
  have hcomma : ∀ item ∈ items, ',' ∉ item := fun item hitem hmem =>
    absurd (hitems item hitem _ hmem) (by simp)
  have hsame : ∀ {l : List (List Char)}, List.Forall₂ Chars l l → ∀ item ∈ l, '\\' ∉ item :=
    fun h item hitem => not_backslash (List.forall₂_same.1 h item hitem) (Nat.le_refl _)
  have hcontent : ∀ content ∈ contents, ',' ∉ content := by
    intro content hmem hc
    obtain ⟨item, hitem, hchars⟩ := exists_item hcontents hmem
    exact hcomma item (mem_inhabited.1 hitem).1 (chars_subset hchars hc)
  obtain ⟨front, last, hjoined, hcases⟩ := hback.exists_joined
  -- No item that is empty has been left out of those that come back.
  have hkept : ∀ {l : List (List Char)}, List.Forall₂ Chars (inhabited l) l →
      (∀ item ∈ l, item ≠ []) ∧ ∀ item ∈ l, '\\' ∉ item := by
    intro l h
    have hall : inhabited l = l :=
      List.filter_sublist.eq_of_length h.length_eq
    refine ⟨fun item hitem => ?_, hsame (by rwa [hall] at h)⟩
    rw [← hall] at hitem
    exact (mem_inhabited.1 hitem).2
  rcases hcases with rfl | ⟨rfl, rfl⟩
  · obtain ⟨rfl, rfl⟩ := joined_inj hcontent
      (fun item hitem => hcomma item (List.mem_append_left _ hitem)) List.not_mem_nil
      (hcomma last (by simp)) hjoined
    have hskip : inhabited (contents ++ [[]]) = inhabited contents := by
      simp [inhabited]
    rw [hskip] at hcontents
    obtain ⟨hne, hback⟩ := hkept hcontents
    refine ⟨by rwa [List.dropLast_concat], fun item hitem => ?_⟩
    rcases List.mem_append.1 hitem with hitem | hitem
    · exact hback item hitem
    · rw [List.mem_singleton.1 hitem]
      exact List.not_mem_nil
  · obtain ⟨rfl, -⟩ := joined_inj hcontent hcomma List.not_mem_nil List.not_mem_nil hjoined
    obtain ⟨hne, hback⟩ := hkept hcontents
    exact ⟨fun item hitem => hne item (List.dropLast_subset _ hitem), hback⟩

/-- An array of strings comes back if its text is not empty, no item but the last is, and
    no item has a backslash or is too long for the parser. -/
theorem convertsBack_iff {items : List (List Char)}
    (htext : IsTextOf items text) (hitems : ∀ item ∈ items, PlainItem item) :
    ConvertsBack items text ↔ text ≠ [] ∧ (∀ item ∈ items.dropLast, item ≠ []) ∧
      ∀ item ∈ items, '\\' ∉ item ∧ item.length ≤ 510 := by
  obtain ⟨front, last, rfl, hcases⟩ := htext.exists_joined
  have hfront : ∀ item ∈ front, PlainItem item := fun item hitem => hitems item (by
    rcases hcases with rfl | ⟨rfl, -⟩
    · exact List.mem_append_left _ hitem
    · exact hitem)
  have hlast : PlainItem last := by
    rcases hcases with rfl | ⟨-, rfl⟩
    · exact hitems last (by simp)
    · simp [PlainItem]
  have hinhabited : inhabited (front ++ [last]) = inhabited items := by
    rcases hcases with rfl | ⟨rfl, rfl⟩
    · rfl
    · simp [inhabited]
  have hplain : ∀ item ∈ inhabited items, PlainItem item := fun item hitem =>
    hitems item (mem_inhabited.1 hitem).1
  constructor
  · rintro ⟨json, n, root, printed, ret, stripped, hjson, hsolve, hprint, hstrip, -, hback⟩
    have hne : joined front last ≠ [] := by
      intro hnil
      rw [hnil] at hjson
      cases hjson
    obtain rfl := Outcome.done.inj ((getjsonstr_array hfront hlast hne).symm.trans hjson)
    rw [hinhabited] at hsolve
    obtain ⟨contents, hcontents, rfl, hlen⟩ := jsonSolveStr_quoted hplain hsolve
    have hitem : ∀ content ∈ contents, content.length + 2 ≤ 512 ∧ PlainItem content := by
      intro content hmem
      obtain ⟨item, hin, hchars⟩ := exists_item hcontents hmem
      exact ⟨Nat.le_trans (Nat.add_le_add_right hchars.length_le 2) (hlen _ hin),
        fun c hc => hplain _ hin c (chars_subset hchars hc)⟩
    obtain ⟨printed', more, hprint', hstrip'⟩ := back_of_contents hitem
    obtain rfl := Outcome.done.inj (hprint'.symm.trans hprint)
    have hsame := hstrip'.symm.trans hstrip
    rw [Outcome.done.injEq, Prod.mk.injEq] at hsame
    rw [← hsame.1, ← hsame.2, Int.toNat_natCast, List.take_left] at hback
    obtain ⟨hdrop, hback⟩ := conditions_of_back hitems hcontents hback
    refine ⟨hne, hdrop, fun item hmem => ⟨hback item hmem, ?_⟩⟩
    rcases eq_or_ne item [] with rfl | hne
    · exact Nat.zero_le _
    · have hle := hlen item (mem_inhabited.2 ⟨hmem, hne⟩)
      omega
  · rintro ⟨hne, hdrop, hall⟩
    have hcontent : ∀ content ∈ inhabited items, content.length + 2 ≤ 512 ∧ PlainItem content :=
      fun content hmem => by
        have hin := (mem_inhabited.1 hmem).1
        have hle := (hall content hin).2
        exact ⟨by omega, hitems content hin⟩
    have hnul : ∀ content ∈ inhabited items, '\x00' ∉ content ∧ '"' ∉ content :=
      fun content hmem => ⟨fun hc => absurd (hplain content hmem _ hc) (by simp),
        fun hc => absurd (hplain content hmem _ hc) (by simp)⟩
    obtain ⟨printed, more, hprint, hstrip⟩ := back_of_contents hcontent
    have hbuilt := built_stringNode fun content hmem =>
      ⟨(hcontent content hmem).1, (hnul content hmem).1⟩
    have hjson := getjsonstr_array hfront hlast hne
    rw [hinhabited] at hjson
    have htext := rootText_strings fun content hmem => (hcontent content hmem).1
    have hdocument := document_rootText hbuilt fun node hnode => by
      obtain ⟨_, hin, hbelow⟩ := JsonNode.mem_nodesBelow.1 hnode
      obtain ⟨content, hmem, rfl⟩ := List.mem_map.1 hin
      obtain rfl : node = stringNode content := by
        simpa [JsonNode.nodes_eq, stringNode] using hbelow
      exact ⟨(hnul content hmem).2, (hall content (mem_inhabited.1 hmem).1).1⟩
    have hnot : '\x00' ∉ rootText .array ((inhabited items).map stringNode) ++ [] := by
      rw [List.append_nil]
      exact hdocument.not_nul
    have hsolve := jsonSolveStr_document hdocument hnot
    rw [htext, List.append_nil, List.cons_append, List.append_assoc] at hsolve
    refine ⟨_, _, _, printed, _, _, hjson, hsolve, hprint, hstrip, Int.natCast_nonneg _, ?_⟩
    · rw [Int.toNat_natCast, List.take_left]
      refine isTextOf_inhabited ?_ hdrop
      rintro rfl
      rcases hcases with h | ⟨rfl, rfl⟩
      · simp at h
      · exact hne rfl

/-- When an array of strings comes back, and when the stripping of a text is sound. -/
theorem arrayText_iff {items : List (List Char)} {text : List Char}
    (htext : IsTextOf items text) (hitems : ∀ item ∈ items, PlainItem item)
    (given : List Char) :
    (ConvertsBack items text ↔ text ≠ [] ∧ (∀ item ∈ items.dropLast, item ≠ []) ∧
        ∀ item ∈ items, '\\' ∉ item ∧ item.length ≤ 510) ∧
      (StripSound given ↔ (StartsArray given → Balanced given)) :=
  ⟨convertsBack_iff htext hitems, stripSound_iff given⟩

/-- Two letters, one behind the other. -/
theorem arrayText_iff_letters :
    IsTextOf [['a'], ['b']] ['a', ',', 'b'] ∧ ConvertsBack [['a'], ['b']] ['a', ',', 'b'] :=
  ⟨.inl rfl, (arrayText_iff (.inl rfl) (by simp [PlainItem]) []).1.2 ⟨by simp, by simp, by simp⟩⟩

/-- The array without items has no text to look at the end of, and a bracket that closes
    no array is taken. -/
theorem arrayText_unsound :
    ¬ ((∀ items text, IsTextOf items text → (∀ item ∈ items, PlainItem item) →
        ConvertsBack items text) ∧ ∀ given, StripSound given) ∧
      ¬ ConvertsBack [] [] ∧ ¬ StripSound ['[', ']', ']'] := by
  have hempty : ¬ ConvertsBack [] [] := fun h =>
    ((convertsBack_iff (.inl rfl) (by simp)).1 h).1 rfl
  have hbracket : ¬ StripSound ['[', ']', ']'] := fun h => by
    have hstarts : StartsArray ['[', ']', ']'] := ⟨[], [']', ']'], rfl, by simp, .close [']']⟩
    exact absurd ((stripSound_iff _).1 h hstarts) (by decide)
  exact ⟨fun h => hbracket (h.2 _), hempty, hbracket⟩

end Cube.Struct
