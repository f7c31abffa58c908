import Cube.Lib.Sliding
import Cube.Json.Cut

/-!
# Loading a policy file

`read_dispatch_file` of `router_process_func.c`. A file of JSON objects is read to a
buffer of 4096 characters. One object after the other is parsed at the front of the
buffer, moved out of it, and made a policy of, which is added to the others.

* `readTurn_document`: a turn of the loop at an object that the buffer holds.
* `readLoop_policies`: the loop over objects that fit the buffer.
* `readLoop_blanks`, `readLoop_closing`: the loop at what is no object.

A file is one that can be read to its end, and a `read` gives what there is room for,
or what is left of the file.
-/

namespace Cube.Policies

open Lib Json

/-! ## Policies -/

/-- The state of a policy that is not in use, of `enum dispatch_policy_state`. -/
def POLICY_CLOSE : Int32 := 0x02
/-- The state of a policy that is left out. -/
def POLICY_IGNORE : Int32 := 0x05

/-- What the loader uses of the router, with the policies loaded before as its state:
    how a policy is read from a node, the state of a policy, and how one is added. A
    policy is read from a map only, where its members are found: `route_read_policy`
    looks for `policy_head` first, and changes nothing if there is none. An error in
    the place of a policy is a pointer that is used then, which is a fault. -/
structure Router (σ π : Type) where
  routeReadPolicy : JsonNode → σ → Outcome (Option π × σ)
  routePathGetstate : π → Int32
  routeAddPolicy : π → σ → σ
  read_no_map : ∀ node s, node.elemType ≠ .map → routeReadPolicy node s = .done (none, s)

/-- What has been loaded: the number of the policies added, and the router's state. -/
structure Loaded (σ : Type) where
  count : Nat
  state : σ

variable {σ π : Type} (router : Router σ π)

/-- A policy is read from a node, and added if it is in use; `false` if none is read. -/
def readPolicy (root : JsonNode) (loaded : Loaded σ) : Outcome (Bool × Loaded σ) :=
  router.routeReadPolicy root loaded.state >>= fun (policy, state) =>
    match policy with
    | none => .done (false, { loaded with state := state })
    | some policy =>
      if router.routePathGetstate policy = POLICY_IGNORE ∨
          router.routePathGetstate policy = POLICY_CLOSE then
        .done (true, { loaded with state := state })
      else .done (true, ⟨loaded.count + 1, router.routeAddPolicy policy state⟩)

/-! ## The loader -/

/-- The size of the buffer, but for its terminator. -/
def BUFFER_SIZE : Nat := 4096

/-- The text that a buffer holds, with the NUL that ends it. -/
def cText (buffer : List Char) : List Char := buffer.takeWhile (· ≠ '\x00') ++ ['\x00']

/-- The loader: the buffer and what is left of the file, `root_node`, which is not set at
    first, and what has been loaded. -/
structure Loader (σ : Type) where
  window : Sliding Char
  rootNode : Option JsonNode
  loaded : Loaded σ

/-- A turn of the loop; `false` if it is the last. -/
def readTurn (l : Loader σ) : Outcome (Bool × Loader σ) :=
  match jsonSolveStr (cText l.window.buffer) with
  | .fault => .fault
  | .error _ => .done (false, l)
  | .done (readlen, root) =>
    -- The characters to move are counted by an `unsigned int`.
    if l.window.leftlen < readlen then .fault
    else
      let window := (l.window.shift '\x00' readlen).refill BUFFER_SIZE
      let rootNode := root.or l.rootNode
      if readlen < 32 then .done (true, { l with window := window, rootNode := rootNode })
      else
        match rootNode with
        | none => .fault
        | some root =>
          readPolicy router root l.loaded >>= fun (more, loaded) =>
            .done (more, ⟨window, some root, loaded⟩)

/-- The loop of `read_dispatch_file`. -/
def readLoop : Nat → Loader σ → Outcome (Loaded σ)
  | 0, _ => .fault
  | fuel + 1, l =>
    if l.window.leftlen ≤ DIGEST_SIZE then .done l.loaded
    else readTurn router l >>= fun (more, l) => if more then readLoop fuel l else .done l.loaded

/-- `read_dispatch_file`, of a file that can be opened. A turn of the loop takes a
    character of the file at least. -/
def readDispatchFile (file : List Char) (s : σ) : Outcome (Loaded σ) :=
  readLoop router (file.length + 1)
    ⟨.start BUFFER_SIZE '\x00' file, none, ⟨0, s⟩⟩

/-! ## The policies of a file -/

/-- The members that a policy is made of. -/
def policyMembers : List (List Char) :=
  ["policy_head".toList, "MATCH_RULES".toList, "ROUTE_RULES".toList]

/-- The text of a policy, with the blanks before it, and its tree: that of a map with the
    members that `route_read_policy` asks for. -/
structure PolicyText where
  text : List Char
  root : JsonNode
  document : Document (some 1) text root
  elemType_eq : root.elemType = .map
  members : ∀ name ∈ policyMembers, ∃ child ∈ root.childlist, child.name = name

/-- A text of policies, one after the other, and blanks after the last. -/
structure PolicyFile where
  policies : List PolicyText
  blanks : List Char
  isSplitChar_blanks : ∀ c ∈ blanks, isSplitChar c

/-- The texts of policies, one after the other. -/
def texts (policies : List PolicyText) : List Char := (policies.map PolicyText.text).flatten

/-- The trees of policies. -/
def roots (policies : List PolicyText) : List JsonNode := policies.map PolicyText.root

/-- The text of a policy file. -/
def PolicyFile.text (f : PolicyFile) : List Char := texts f.policies ++ f.blanks

/-- The policies of trees are read and added in their order, up to one that is none. -/
def loadPolicies : List JsonNode → Loaded σ → Outcome (Loaded σ)
  | [], loaded => .done loaded
  | root :: roots, loaded =>
    readPolicy router root loaded >>= fun (more, loaded) =>
      if more then loadPolicies roots loaded else .done loaded

/-- Every one of the trees, in their order, is that of a policy. -/
def ReadsAll : List JsonNode → Loaded σ → Prop
  | [], _ => True
  | root :: roots, loaded =>
    ∃ loaded', readPolicy router root loaded = .done (true, loaded') ∧ ReadsAll roots loaded'

/-- The policies of the file are loaded as from its whole text, whatever the router. -/
def PolicyFile.LoadsWhole (f : PolicyFile) : Prop :=
  ∀ {σ π : Type} (router : Router σ π) (s : σ), ReadsAll router (roots f.policies) ⟨0, s⟩ →
    readDispatchFile router f.text s = loadPolicies router (roots f.policies) ⟨0, s⟩

/-! ## A policy -/

/-- The text of a policy is longer than what is passed over. -/
theorem PolicyText.length_gt (p : PolicyText) : 32 < p.text.length := by
  have h := p.document.length_names p.elemType_eq (show policyMembers.Nodup by decide) p.members
  have hsum : (policyMembers.map fun name => name.length + 2).sum = 39 := by decide
  omega

theorem not_nul_texts (policies : List PolicyText) : '\x00' ∉ texts policies := by
  intro h
  obtain ⟨text, htext, h⟩ := List.mem_flatten.1 h
  obtain ⟨p, -, rfl⟩ := List.mem_map.1 htext
  exact p.document.not_nul h

theorem not_nul_blanks {blanks : List Char} (h : ∀ c ∈ blanks, isSplitChar c) :
    '\x00' ∉ blanks := fun hmem => isSplitChar_ne_nul (h _ hmem) rfl

/-- No policy is read from a node of no type. -/
theorem readPolicy_null {root : JsonNode} (h : root.elemType ≠ .map) (loaded : Loaded σ) :
    readPolicy router root loaded = .done (false, loaded) := by
  rw [readPolicy, router.read_no_map root loaded.state h]
  rfl

/-! ## Turns of the loop -/

section Turns

variable {router} {l : Loader σ} {text stale : List Char}

/-- The text that the parser is given. -/
theorem cText_eq (h : l.window.Holds BUFFER_SIZE '\x00' text stale) (htext : '\x00' ∉ text)
    (hstale : '\x00' ∉ stale) :
    cText l.window.buffer = text.take BUFFER_SIZE ++ stale ++ ['\x00'] := by
  rw [cText, h.takeWhile_buffer htext hstale]

variable (router) in
/-- A turn at a text of which the parser returns a tree. -/
theorem readTurn_root {readlen : Nat} {root : JsonNode}
    (hsolve : jsonSolveStr (cText l.window.buffer) = .done (readlen, some root))
    (hle : readlen ≤ l.window.leftlen) (hlen : 32 ≤ readlen) :
    readTurn router l = readPolicy router root l.loaded >>= fun (more, loaded) =>
      .done (more, ⟨(l.window.shift '\x00' readlen).refill BUFFER_SIZE, some root, loaded⟩) := by
  simp only [readTurn, hsolve, if_neg (Nat.not_lt.2 hle), if_neg (Nat.not_lt.2 hlen),
    Option.some_or]

/-- Before a policy, there is enough in the buffer for the loop to go on. -/
theorem leftlen_gt {p : PolicyText} {rest : List Char}
    (h : l.window.Holds BUFFER_SIZE '\x00' (p.text ++ rest) stale) :
    DIGEST_SIZE < l.window.leftlen := by
  have hlong : DIGEST_SIZE < p.text.length := p.length_gt
  rw [h.leftlen_eq, List.length_take, List.length_append]
  exact Nat.lt_min.2 ⟨by decide, Nat.lt_add_right _ hlong⟩

variable (router) in
/-- A turn at a policy that the buffer holds. -/
theorem readTurn_document {rest : List Char} (p : PolicyText)
    (h : l.window.Holds BUFFER_SIZE '\x00' (p.text ++ rest) stale) (hrest : '\x00' ∉ rest)
    (hstale : '\x00' ∉ stale) (hlen : p.text.length ≤ BUFFER_SIZE) :
    ∃ window, window.Holds BUFFER_SIZE '\x00' rest
        (Sliding.staleAfter BUFFER_SIZE (p.text ++ rest) p.text.length) ∧
      readTurn router l = readPolicy router p.root l.loaded >>= fun (more, loaded) =>
        .done (more, ⟨window, some p.root, loaded⟩) := by
  have htext : '\x00' ∉ p.text ++ rest := by simp [p.document.not_nul, hrest]
  have hleft : p.text.length ≤ l.window.leftlen := by
    rw [h.leftlen_eq, List.length_take, List.length_append]
    omega
  have hnext := h.next hleft
  rw [List.drop_left] at hnext
  refine ⟨_, hnext, readTurn_root router ?_ hleft (Nat.le_of_lt p.length_gt)⟩
  have hs : '\x00' ∉ p.text ++ (rest.take (BUFFER_SIZE - p.text.length) ++ stale) := by
    simp only [List.mem_append, not_or]
    exact ⟨p.document.not_nul, fun hmem => hrest (List.mem_of_mem_take hmem), hstale⟩
  rw [cText_eq h htext hstale, List.take_append, List.take_of_length_le hlen,
    List.append_assoc p.text]
  exact jsonSolveStr_document p.document hs

/-- The loop goes on after a turn at a policy. -/
theorem readLoop_succ {loaded : Loaded σ} {root : JsonNode} {window : Sliding Char}
    (hlen : DIGEST_SIZE < l.window.leftlen)
    (hturn : readTurn router l = readPolicy router root l.loaded >>= fun (more, loaded) =>
      .done (more, ⟨window, some root, loaded⟩))
    (hread : readPolicy router root l.loaded = .done (true, loaded)) (fuel : Nat) :
    readLoop router (fuel + 1) l = readLoop router fuel ⟨window, some root, loaded⟩ := by
  rw [readLoop, if_neg (Nat.not_le.2 hlen), hturn, hread]
  rfl

/-- The loop ends where the turn is the last. -/
theorem readLoop_last {l' : Loader σ} (hturn : readTurn router l = .done (false, l'))
    (hloaded : l'.loaded = l.loaded) (fuel : Nat) :
    readLoop router (fuel + 1) l = .done l.loaded := by
  rw [readLoop, hturn]
  split_ifs
  · rfl
  · exact congrArg _ hloaded

/-- The loop ends at a text that is refused. -/
theorem readLoop_error {e : Int} (hsolve : jsonSolveStr (cText l.window.buffer) = .error e)
    (fuel : Nat) : readLoop router (fuel + 1) l = .done l.loaded := by
  have hturn : readTurn router l = .done (false, l) := by
    simp only [readTurn, hsolve]
  exact readLoop_last hturn rfl fuel

/-- The loop ends at a tree that is no policy. -/
theorem readLoop_refused {readlen : Nat} {root : JsonNode}
    (hsolve : jsonSolveStr (cText l.window.buffer) = .done (readlen, some root))
    (hle : readlen ≤ l.window.leftlen) (hlen : 32 ≤ readlen)
    (hread : readPolicy router root l.loaded = .done (false, l.loaded)) (fuel : Nat) :
    readLoop router (fuel + 1) l = .done l.loaded := by
  have hturn := readTurn_root router hsolve hle hlen
  rw [hread] at hturn
  exact readLoop_last hturn rfl fuel

/-- The loop ends at blanks, where there is nothing but a terminator behind them. -/
theorem readLoop_blanks (h : l.window.Holds BUFFER_SIZE '\x00' text [])
    (hblanks : ∀ c ∈ text.take BUFFER_SIZE, isSplitChar c) (htext : '\x00' ∉ text) (fuel : Nat) :
    readLoop router (fuel + 1) l = .done l.loaded := by
  by_cases hlen : l.window.leftlen ≤ DIGEST_SIZE
  · rw [readLoop, if_pos hlen]
  have hsolve := jsonSolveStr_blanks hblanks
  have hctext := cText_eq h htext List.not_mem_nil
  rw [List.append_nil] at hctext
  rw [← hctext, ← h.leftlen_eq] at hsolve
  exact readLoop_refused hsolve (Nat.le_refl _) (Nat.le_of_lt (Nat.not_le.1 hlen))
    (readPolicy_null router (by decide) _) fuel

/-- The loop ends at a bracket that closes nothing, be it in the buffer or not. -/
theorem readLoop_closing {blanks rest : List Char} {k : Container}
    (h : l.window.Holds BUFFER_SIZE '\x00' (blanks ++ k.closing :: rest) stale)
    (hblanks : ∀ c ∈ blanks, isSplitChar c) (hrest : '\x00' ∉ rest) (hstale : '\x00' ∉ stale)
    (fuel : Nat) : readLoop router (fuel + 1) l = .done l.loaded := by
  have htext : '\x00' ∉ blanks ++ k.closing :: rest := by
    simp [not_nul_blanks hblanks, k.closing_ne_nul.symm, hrest]
  by_cases hlen : BUFFER_SIZE ≤ blanks.length
  · -- The buffer is full of blanks.
    have htake : (blanks ++ k.closing :: rest).take BUFFER_SIZE = blanks.take BUFFER_SIZE :=
      List.take_append_of_le_length hlen
    obtain rfl : stale = [] := by
      refine h.stale_eq ?_
      rw [h.finished_eq, decide_eq_false_iff_not, List.length_append]
      omega
    refine readLoop_blanks h (fun c hc => ?_) htext fuel
    rw [htake] at hc
    exact hblanks c (List.mem_of_mem_take hc)
  · obtain ⟨n, hn⟩ : ∃ n, BUFFER_SIZE - blanks.length = n + 1 := ⟨_, (Nat.succ_pred_eq_of_pos
      (Nat.sub_pos_of_lt (Nat.not_le.1 hlen))).symm⟩
    refine readLoop_error (e := -EINVAL) ?_ fuel
    rw [cText_eq h htext hstale, List.take_append,
      List.take_of_length_le (Nat.le_of_lt (Nat.not_le.1 hlen)), hn, List.take_succ_cons,
      List.append_assoc blanks, List.cons_append]
    refine jsonSolveStr_closing hblanks k ?_
    simp only [List.mem_append, List.mem_cons, not_or]
    exact ⟨not_nul_blanks hblanks, k.closing_ne_nul.symm,
      fun hmem => hrest (List.mem_of_mem_take hmem), hstale⟩

/-- The loop over policies that fit the buffer. -/
theorem readLoop_policies {policies : List PolicyText} {rest : List Char}
    (h : l.window.Holds BUFFER_SIZE '\x00' (texts policies ++ rest) stale)
    (hrest : '\x00' ∉ rest) (hstale : '\x00' ∉ stale)
    (hfit : ∀ p ∈ policies, p.text.length ≤ BUFFER_SIZE)
    (hread : ReadsAll router (roots policies) l.loaded) :
    ∃ l' stale', l'.window.Holds BUFFER_SIZE '\x00' rest stale' ∧ '\x00' ∉ stale' ∧
      (policies = [] → stale' = stale) ∧
      loadPolicies router (roots policies) l.loaded = .done l'.loaded ∧
      ∀ fuel, readLoop router (fuel + policies.length) l = readLoop router fuel l' := by
  induction policies generalizing l stale with
  | nil => exact ⟨l, stale, h, hstale, fun _ => rfl, rfl, fun fuel => rfl⟩
  | cons p policies ih =>
    have hrest' : '\x00' ∉ texts policies ++ rest := by
      simp [not_nul_texts, hrest]
    have heq : texts (p :: policies) ++ rest = p.text ++ (texts policies ++ rest) :=
      List.append_assoc _ _ _
    rw [heq] at h
    obtain ⟨window, hwindow, hturn⟩ := readTurn_document router p h hrest' hstale
      (hfit p List.mem_cons_self)
    obtain ⟨loaded, hloaded, hreads⟩ := hread
    have hstep := readLoop_succ (leftlen_gt h) hturn hloaded
    have hnul : '\x00' ∉ p.text ++ (texts policies ++ rest) := by
      simp [p.document.not_nul, not_nul_texts, hrest]
    obtain ⟨l', stale', hholds, hstale', -, hload, hloop⟩ := ih (l := ⟨window, some p.root, loaded⟩)
      hwindow (Sliding.not_mem_staleAfter hnul _) (fun q hq => hfit q (List.mem_cons_of_mem p hq)) hreads
    refine ⟨l', stale', hholds, hstale', nofun, ?_, fun fuel => ?_⟩
    · rw [roots, List.map_cons, loadPolicies, hloaded]
      exact hload
    · rw [List.length_cons, ← Nat.add_assoc, hstep, hloop]

end Turns

end Cube.Policies
