import GoAtlas.Clientip.Extractor

/-!
# The chain of X-Forwarded-For

Every proxy appends to the right of the chain, so what a client sends is in front of it. The entries
kept are the last ones of the whole chain whatever its lines are, and both ways of selecting one of
them go from the right. The cache only ever says what parsing the text would say.
-/

namespace GoAtlas.Clientip

open Lib

/-! ## The entries kept -/

def chain (lines : List Bytes) : List Bytes := lines.flatMap (splitAtSep comma)

theorem lastIndexByte_none {s : Bytes} {b : UInt8} (h : lastIndexByte s b = none) : b ∉ s := by
  simp only [lastIndexByte, Option.map_eq_none_iff, List.findIdx?_eq_none_iff,
    List.mem_reverse] at h
  intro hb
  simpa using h b hb

theorem lastIndexByte_some {s : Bytes} {b : UInt8} {i : Nat} (h : lastIndexByte s b = some i) :
    s = s.take i ++ b :: s.drop (i + 1) ∧ b ∉ s.drop (i + 1) := by
  simp only [lastIndexByte, Option.map_eq_some_iff, List.findIdx?_eq_some_iff_getElem] at h
  obtain ⟨j, ⟨hj, hb, hbefore⟩, rfl⟩ := h
  rw [List.length_reverse] at hj
  have hlt : s.length - 1 - j < s.length := by omega
  have hat : s[s.length - 1 - j] = b := by simpa using hb
  refine ⟨?_, fun hmem => ?_⟩
  · rw [← hat, List.getElem_cons_drop, List.take_append_drop]
  · obtain ⟨k, hk, hkb⟩ := List.getElem_of_mem hmem
    rw [List.length_drop] at hk
    have hk' := hbefore (s.length - 1 - (s.length - 1 - j + 1 + k)) (by omega)
    rw [List.getElem_reverse] at hk'
    rw [List.getElem_drop] at hkb
    have hidx : s.length - 1 - (s.length - 1 - (s.length - 1 - j + 1 + k)) =
        s.length - 1 - j + 1 + k := by omega
    simp [hidx, hkb] at hk'

theorem lineEntries_eq (room : Nat) (value : Bytes) (ips : List Bytes) :
    lineEntries room value ips =
      (ips ++ ((splitAtSep comma value).reverse.map cleanEntry).take room,
        room - (splitAtSep comma value).length) := by
  induction room generalizing value ips with
  | zero => simp [lineEntries]
  | succ room ih =>
    simp only [lineEntries]
    split
    · rename_i i hi
      obtain ⟨hvalue, hlast⟩ := lastIndexByte_some hi
      have hsplit : splitAtSep comma value =
          splitAtSep comma (value.take i) ++ [value.drop (i + 1)] := by
        conv_lhs => rw [hvalue]
        rw [splitAtSep_append, splitAtSep_of_not_mem hlast]
      rw [ih, hsplit]
      simp
    · rename_i hi
      rw [splitAtSep_of_not_mem (lastIndexByte_none hi)]
      simp

theorem forwardedForIPs_eq (lines : List Bytes) :
    forwardedForIPs lines =
      (((chain lines).map cleanEntry).reverse.take maxIPsPerHeader).reverse := by
  -- the loop over the lines, from the last one
  have hloop : ∀ (values : List Bytes) (ips : List Bytes) (room : Nat),
      (values.foldl (fun acc value => if acc.2 = 0 then acc else lineEntries acc.2 value acc.1)
        (ips, room)).1 =
      ips ++ (values.flatMap fun value => (splitAtSep comma value).reverse.map cleanEntry).take
        room := by
    intro values
    induction values with
    | nil => simp
    | cons value values ih =>
      intro ips room
      rw [List.foldl_cons, List.flatMap_cons]
      by_cases hroom : room = 0
      · simp [hroom, ih]
      · have hline : (if room = 0 then (ips, room) else lineEntries room value ips) = _ :=
          (if_neg hroom).trans (lineEntries_eq room value ips)
        simp only [hline]
        rw [ih, List.take_append, List.append_assoc]
        simp
  rw [forwardedForIPs, hloop, chain, ← List.map_reverse, List.reverse_flatMap, List.map_flatMap]
  rfl

/-! ## What a client can put in front -/

/-- The lines with a part in front: whole lines, and entries in the first line, which proxies
separate from theirs by a comma and spaces. -/
inductive Prepends : List Bytes → List Bytes → Prop
  | lines (extra lines : List Bytes) : Prepends lines (extra ++ lines)
  | entries (extra : List Bytes) (front ws first : Bytes) (rest : List Bytes)
    (hws : ∀ b ∈ ws, [b] ∈ spaces) :
    Prepends (first :: rest) (extra ++ (front ++ comma :: (ws ++ first)) :: rest)

theorem cleanEntry_spaces {ws : Bytes} (hws : ∀ b ∈ ws, [b] ∈ spaces) (s : Bytes) :
    cleanEntry (ws ++ s) = cleanEntry s := by
  have htrim : trimSpace (ws ++ s) =
      trimSpace s := by rw [trimSpace, trimFront_spaces hws, trimSpace]
  rw [cleanEntry, htrim, cleanEntry]

theorem comma_not_mem_spaces {ws : Bytes} (hws : ∀ b ∈ ws, [b] ∈ spaces) : comma ∉ ws := by
  intro hmem
  have hcomma := mem_spaces_singleton (hws comma hmem)
  simp [comma] at hcomma

theorem Prepends.chain {lines lines' : List Bytes} (h : Prepends lines lines') :
    ∃ front, (chain lines').map cleanEntry = front ++ (Clientip.chain lines).map cleanEntry := by
  cases h with
  | lines extra => exact ⟨(Clientip.chain extra).map cleanEntry, by simp [Clientip.chain]⟩
  | entries extra front ws first rest hws =>
    obtain ⟨part, parts, hfirst, hjoined⟩ := splitAtSep_front (comma_not_mem_spaces hws) first
    refine ⟨(Clientip.chain extra ++ splitAtSep comma front).map cleanEntry, ?_⟩
    simp only [Clientip.chain, List.flatMap_append, List.flatMap_cons, splitAtSep_append,
      hjoined, hfirst, List.map_append, List.map_cons, cleanEntry_spaces hws, List.append_assoc]

/-- From the right, the entries kept of the longer chain begin with all of the original one. -/
theorem Prepends.forwardedForIPs {lines lines' : List Bytes} (h : Prepends lines lines')
    (hlen : (Clientip.chain lines).length ≤ maxIPsPerHeader) :
    (forwardedForIPs lines).reverse = ((Clientip.chain lines).map cleanEntry).reverse ∧
    ∃ more, (Clientip.forwardedForIPs lines').reverse =
      ((Clientip.chain lines).map cleanEntry).reverse ++ more := by
  have hlen' : ((Clientip.chain lines).map cleanEntry).reverse.length ≤ maxIPsPerHeader := by
    simpa using hlen
  obtain ⟨front, hfront⟩ := h.chain
  rw [forwardedForIPs_eq, List.reverse_reverse, forwardedForIPs_eq, List.reverse_reverse, hfront,
    List.reverse_append, List.take_append, List.take_of_length_le hlen']
  exact ⟨rfl, _, rfl⟩

/-! ## The cache -/

namespace Extractor

variable {σ : Type} {lru : Cacher σ} {parse : Bytes → Option IP} {e : Extractor} {c : Option σ}

def Consistent (lru : Cacher σ) (parse : Bytes → Option IP) (c : Option σ) : Prop :=
  ∀ c' ∈ c, ∀ ip addr, (lru.get c' ip).1 = some addr → parseAddr parse ip = some addr

theorem Consistent.get (hc : Consistent lru parse c) (ip : Bytes) :
    Consistent lru parse (get lru c ip).2 ∧
      ∀ addr, (Extractor.get lru c ip).1 = some addr → parseAddr parse ip = some addr := by
  cases c with
  | none => exact ⟨hc, nofun⟩
  | some c =>
    refine ⟨?_, hc c rfl ip⟩
    rintro _ ⟨⟩ ip' addr hget
    exact hc c rfl ip' addr (lru.get_get c ip ip' addr hget)

theorem Consistent.put (hc : Consistent lru parse c) {ip : Bytes} {addr : IP}
    (hip : parseAddr parse ip = some addr) : Consistent lru parse (put lru c ip addr) := by
  cases c with
  | none => exact hc
  | some c =>
    rintro _ ⟨⟩ ip' addr' hget
    rcases lru.get_put c ip ip' addr addr' hget with ⟨rfl, rfl⟩ | hget
    · exact hip
    · exact hc c rfl ip' addr' hget

theorem Consistent.parseAndCheckIP (hc : Consistent lru parse c) (ip : Bytes) :
    Consistent lru parse (parseAndCheckIP lru parse c ip).2 := by
  have hget := hc.get ip
  simp only [Extractor.parseAndCheckIP]
  split
  · rename_i addr c' heq
    rw [heq] at hget
    exact hget.1
  · rename_i c' heq
    rw [heq] at hget
    split
    · exact hget.1
    · rename_i addr hip
      exact hget.1.put hip

/-- The address an entry of the chain stands for, if it may be the client's. -/
def pick (parse : Bytes → Option IP) (e : Extractor) (ip : Bytes) : Option IP :=
  if maxIPLength < ip.length then none
  else (parseAddr parse ip).filter fun addr => !isTrusted addr e.opts.trustedProxies &&
    !isPrivate addr

/-- The scan finds the first address that may be the client's, whatever is in the cache. -/
theorem scanForwardedFor_spec (hc : Consistent lru parse c) (ips : List Bytes) :
    (e.scanForwardedFor lru parse ips c).1 = ips.findSome? (pick parse e) ∧
    Consistent lru parse (e.scanForwardedFor lru parse ips c).2 := by
  induction ips generalizing c with
  | nil => exact ⟨rfl, hc⟩
  | cons ip ips ih =>
    simp only [scanForwardedFor, List.findSome?_cons]
    by_cases hlong : maxIPLength < ip.length
    · simpa [hlong, pick] using ih hc
    rw [if_neg hlong, pick, if_neg hlong]
    have hget := hc.get ip
    split
    · rename_i addr c' heq
      rw [heq] at hget
      rw [hget.2 addr rfl, Option.filter_some]
      by_cases hok : (!isTrusted addr e.opts.trustedProxies && !isPrivate addr) = true
      · simpa [hok] using hget.1
      · simpa [hok] using ih hget.1
    · rename_i c' heq
      rw [heq] at hget
      split
      · rename_i hip
        simpa [hip] using ih hget.1
      · rename_i addr hip
        have hput := hget.1.put hip
        by_cases hok : (isTrusted addr e.opts.trustedProxies || isPrivate addr) = true
        · have hpick : (!isTrusted addr e.opts.trustedProxies && !isPrivate addr) = false := by
            rw [← Bool.not_or, hok]; rfl
          simpa [hok, hip, hpick, Option.filter_some] using ih hput
        · have hpick : (!isTrusted addr e.opts.trustedProxies && !isPrivate addr) = true := by
            rw [← Bool.not_or, Bool.not_eq_true _ |>.mp hok]; rfl
          simpa [hok, hip, hpick, Option.filter_some] using hput

def select (parse : Bytes → Option IP) (e : Extractor) (rev : List Bytes) : Option IP :=
  if 0 < e.opts.trustedProxiesCount then
    (rev[e.opts.trustedProxiesCount]?.bind (parseAddr parse)).filter fun addr => !isPrivate addr
  else rev.findSome? (pick parse e)

section

variable (hc : Consistent lru parse c)
include hc

theorem parseXForwardedForHeader_spec (ips : List Bytes) :
    (e.parseXForwardedForHeader lru parse c ips).1 = select parse e ips.reverse ∧
    Consistent lru parse (e.parseXForwardedForHeader lru parse c ips).2 := by
  simp only [parseXForwardedForHeader, select]
  split
  · split
    · rename_i hshort
      rw [List.getElem?_eq_none (by simpa using hshort)]
      exact ⟨rfl, hc⟩
    · rename_i hlen
      have hidx : ips.length - e.opts.trustedProxiesCount - 1 =
          ips.length - 1 - e.opts.trustedProxiesCount := by omega
      rw [hidx, ← List.getElem?_reverse (Nat.lt_of_not_le hlen)]
      cases ips.reverse[e.opts.trustedProxiesCount]? with
      | none => exact ⟨rfl, hc⟩
      | some ip =>
        cases hip : parseAddr parse ip with
        | none => simp [hip, hc]
        | some addr =>
          cases hprivate : isPrivate addr <;> simp [hip, hprivate, hc, Option.filter_some]
  · exact scanForwardedFor_spec hc ips.reverse

theorem Consistent.checkIPs (ips : List Bytes) (total : Nat) :
    Consistent lru parse (checkIPs lru parse ips total c).2.2 := by
  induction ips generalizing total c with
  | nil => exact hc
  | cons ip ips ih =>
    simp only [Extractor.checkIPs]
    have hcheck := hc.parseAndCheckIP ip
    split
    · exact hc
    · split
      · rename_i heq
        rwa [heq] at hcheck
      · rename_i heq
        rw [heq] at hcheck
        exact ih hcheck (total + 1)

theorem Consistent.walkHeaders (peer : Option IP)
    (headers : String → List Bytes) (names : List String) (total : Nat) :
    Consistent lru parse (e.walkHeaders lru parse peer headers names total c).2 := by
  induction names generalizing total c with
  | nil => exact hc
  | cons name names ih =>
    simp only [Extractor.walkHeaders]
    split
    · exact hc
    · split
      · exact ih hc total
      · rename_i ip ips _
        split
        · have hxff := (parseXForwardedForHeader_spec (e := e) hc (ip :: ips)).2
          split
          · rename_i heq
            rwa [heq] at hxff
          · rename_i heq
            rw [heq] at hxff
            split
            · exact hxff
            · exact ih hxff _
        · have hcheck := hc.checkIPs (ip :: ips) total
          split
          · rename_i heq
            rwa [heq] at hcheck
          · rename_i heq
            rw [heq] at hcheck
            exact ih hcheck _

theorem Consistent.extract (peer : Option IP) (headers : String → List Bytes) :
    Consistent lru parse (e.extract lru parse peer headers c).2 := by
  simp only [Extractor.extract]
  split
  · exact hc
  · split
    · exact hc
    · exact hc.walkHeaders peer headers e.opts.headers 0

end

theorem consistent_cacheAfter (calls : List (Option IP × (String → List Bytes))) :
    Consistent lru parse (e.cacheAfter lru parse calls) := by
  have hloop : ∀ (calls : List (Option IP × (String → List Bytes))) (c : Option σ),
      Consistent lru parse c →
      Consistent lru parse
        (calls.foldl (fun c call => (e.extract lru parse call.1 call.2 c).2) c) := by
    intro calls
    induction calls with
    | nil => exact fun c hc => hc
    | cons call calls ih => exact fun c hc => ih _ (hc.extract call.1 call.2)
  refine hloop calls _ fun c hc ip addr hget => ?_
  obtain ⟨size, -, rfl⟩ := Option.mem_map.mp hc
  cases (lru.get_newCache size ip).symm.trans hget

/-! ## The result -/

/-- A client address that X-Forwarded-For names is the result, and with a proxy count no other
header is asked. -/
theorem walkHeaders_forwardedFor (hc : Consistent lru parse c) {header : String}
    (hxff : isForwardedFor header) (rest : List String) (peer : Option IP)
    (headers : String → List Bytes)
    (hsome : (select parse e (forwardedForIPs (headers header)).reverse).isSome ∨
      forwardedForIPs (headers header) ≠ [] ∧ 0 < e.opts.trustedProxiesCount) :
    (e.walkHeaders lru parse peer headers (header :: rest) 0 c).1 =
      (select parse e (forwardedForIPs (headers header)).reverse).or peer := by
  have hspec := (parseXForwardedForHeader_spec (e := e) hc (forwardedForIPs (headers header))).1
  have hroom : ¬ maxTotalIPs ≤ 0 := by decide
  simp only [walkHeaders, if_neg hroom, getIPsFromHeader, hxff, if_true]
  cases hips : forwardedForIPs (headers header) with
  | nil =>
    rw [hips] at hsome
    have hnone : select parse e [] = none := by simp [select]
    simp [hnone] at hsome
  | cons ip ips =>
    rw [hips] at hspec hsome
    rw [← hspec] at hsome ⊢
    cases hparsed : e.parseXForwardedForHeader lru parse c (ip :: ips) with
    | mk addr c' =>
      cases addr with
      | some addr => simp only [hparsed, Option.some_or]
      | none =>
        rw [hparsed] at hsome
        have hcount : 0 < e.opts.trustedProxiesCount := by simpa using hsome
        simp [hparsed, hcount]

def PublicEntry (parse : Bytes → Option IP) (e : Extractor) (entry : Bytes) : Prop :=
  ∃ addr, parseAddr parse (trimSpace entry) = some addr ∧
    isTrusted addr e.opts.trustedProxies = false ∧ isPrivate addr = false

theorem PublicEntry.pick_isSome {entry : Bytes} (h : PublicEntry parse e entry)
    (hlen : (trimSpace entry).length ≤ maxIPLength) : (pick parse e (cleanEntry entry)).isSome := by
  obtain ⟨addr, hparse, htrusted, hprivate⟩ := h
  have hclean : cleanEntry entry = trimSpace entry := by
    by_cases hnil : trimSpace entry = []
    · simp [cleanEntry, hnil]
    · simp [cleanEntry, hnil, hlen]
  simp [pick, hclean, Nat.not_lt.mpr hlen, hparse, htrusted, hprivate, Option.filter_some]

/-- The original entries decide: with a proxy count below their number by position, without one if
one of them is a public address. -/
def Decides (parse : Bytes → Option IP) (e : Extractor) (entries : List Bytes) : Prop :=
  0 < e.opts.trustedProxiesCount ∧ e.opts.trustedProxiesCount < entries.length ∨
  e.opts.trustedProxiesCount = 0 ∧
    ∃ entry ∈ entries, (trimSpace entry).length ≤ maxIPLength ∧ PublicEntry parse e entry

/-- More entries to the left do not change what is selected. -/
theorem Decides.select_append {entries : List Bytes} (h : Decides parse e entries)
    (more : List Bytes) :
    select parse e ((entries.map cleanEntry).reverse ++ more) =
      select parse e (entries.map cleanEntry).reverse := by
  rcases h with ⟨hpos, hlt⟩ | ⟨hzero, entry, hmem, hlen, hpublic⟩
  · simp only [select, if_pos hpos]
    rw [List.getElem?_append_left (by simpa using hlt)]
  · have hsome : ((entries.map cleanEntry).reverse.findSome? (pick parse e)).isSome := by
      rw [List.findSome?_isSome_iff]
      exact ⟨cleanEntry entry, by simpa using ⟨entry, hmem, rfl⟩, hpublic.pick_isSome hlen⟩
    simp only [select, hzero, Nat.lt_irrefl, if_false, List.findSome?_append]
    rw [Option.or_of_isSome hsome]

theorem Decides.selects {entries ips : List Bytes} (h : Decides parse e entries) {more : List Bytes}
    (hips : ips.reverse = (entries.map cleanEntry).reverse ++ more) :
    (select parse e ips.reverse).isSome ∨ ips ≠ [] ∧ 0 < e.opts.trustedProxiesCount := by
  rcases h with ⟨hpos, hlt⟩ | ⟨hzero, entry, hmem, hlen, hpublic⟩
  · refine .inr ⟨fun hnil => ?_, hpos⟩
    have hlength := congrArg List.length hips
    simp [hnil] at hlength
    omega
  · left
    simp only [select, hzero, Nat.lt_irrefl, if_false, List.findSome?_isSome_iff]
    refine ⟨cleanEntry entry, ?_, hpublic.pick_isSome hlen⟩
    rw [hips, List.mem_append, List.mem_reverse]
    exact .inl (List.mem_map_of_mem hmem)

end Extractor

open Extractor

/-- What a client puts in front of the chain does not change the result of a request through a
trusted peer, and nothing in the headers does for an untrusted one. Other headers and the requests
before may differ too. -/
theorem forwardedFor_not_spoofed {σ : Type} (lru : Cacher σ) (parse : Bytes → Option IP)
    (opts : Options) {header : String} {rest : List String}
    (hfirst : opts.headers = header :: rest) (hxff : isForwardedFor header) (peer : Option IP)
    (headers headers' : String → List Bytes)
    (calls calls' : List (Option IP × (String → List Bytes))) :
    let e := newExtractor opts
    let result := (e.extract lru parse peer headers (e.cacheAfter lru parse calls)).1
    let result' := (e.extract lru parse peer headers' (e.cacheAfter lru parse calls')).1
    (e.peerTrusted peer = true → Prepends (headers header) (headers' header) →
      (chain (headers header)).length ≤ maxIPsPerHeader → e.Decides parse (chain (headers header)) →
      result' = result) ∧
    (e.peerTrusted peer = false → result = peer ∧ result' = result) := by
  intro e result result'
  refine ⟨fun htrusted hpre hlen hdecides => ?_, fun huntrusted => ?_⟩
  · obtain ⟨hips, more, hips'⟩ := hpre.forwardedForIPs hlen
    have hnames : e.opts.headers = header :: rest := hfirst
    simp only [result, result', extract, htrusted, hnames, Bool.not_true,
      Bool.false_eq_true, if_false]
    split
    · rfl
    · rw [walkHeaders_forwardedFor (consistent_cacheAfter calls) hxff rest peer headers
          (hdecides.selects (hips.trans (List.append_nil _).symm)),
        walkHeaders_forwardedFor (consistent_cacheAfter calls') hxff rest peer headers'
          (hdecides.selects hips'),
        hips, hips', hdecides.select_append]
  · simp [result, result', extract, huntrusted]

/-! ## Addresses in dotted form, for the cases below -/

def ascii (s : String) : Bytes := s.toList.map fun c => UInt8.ofNat c.toNat

def parseOctet (s : Bytes) : Option Nat :=
  let n := s.foldl (fun n b => n * 10 + (b.toNat - 48)) 0
  if s ≠ [] ∧ s.length ≤ 3 ∧ (s.all fun b => 48 ≤ b && b ≤ 57) ∧ n ≤ 255 ∧
    (s.length = 1 ∨ s.head? ≠ some 48) then
    some n
  else none

def parseDotted (s : Bytes) : Option IP :=
  match (splitAtSep 46 s).mapM parseOctet with
  | some [a, b, c, d] => some (p4 a b c d 32).addr
  | _ => none

def proxyOptions (count : Nat) : Options where
  trustedPeers := [p4 10 0 0 0 8]
  trustedProxies := []
  trustedProxiesCount := count
  headers := ["X-Forwarded-For"]
  headersEnabled := true
  cacheSize := 100
  cacheDisabled := false
  trustPrivatePeers := false

def proxyPeer : Option IP := some (p4 10 0 0 1 32).addr

def latest : Cacher (Nat × List (Bytes × IP)) where
  newCache size := (size, [])
  get c key := (c.2.lookup key, c)
  put c key addr := (c.1, ((key, addr) :: c.2).take c.1)
  get_newCache _ _ := rfl
  get_get _ _ _ _ h := h
  get_put c key key' addr addr' h := by
    have hall := (List.take_prefix c.1 ((key, addr) :: c.2)).lookup_eq_some h
    rw [List.lookup_cons] at hall
    split at hall
    · rename_i hkey
      exact .inl ⟨eq_of_beq hkey, (Option.some.inj hall).symm⟩
    · exact .inr hall

/-- The address reported through the proxy for the lines of X-Forwarded-For, after requests with
other lines. -/
def client (count : Nat) (parse : Bytes → Option IP) (before : List (List Bytes))
    (lines : List Bytes) : Option IP :=
  let e := newExtractor (proxyOptions count)
  (e.extract latest parse proxyPeer (fun _ => lines)
    (e.cacheAfter latest parse (before.map fun lines => (proxyPeer, fun _ => lines)))).1

theorem forwardedFor_not_spoofed_padded :
    client 0 parseDotted [[ascii "8.8.8.8"]]
      [ascii "1.1.1.1,2.2.2.2,3.3.3.3, 4.4.4.4", ascii "9.9.9.9, 8.8.8.8 ", ascii "10.0.0.7"] =
    client 0 parseDotted [] [ascii "8.8.8.8 ", ascii "10.0.0.7"] := by
  have hdecides : (newExtractor (proxyOptions 0)).Decides parseDotted
      (chain [ascii "8.8.8.8 ", ascii "10.0.0.7"]) :=
    .inr ⟨rfl, ascii "8.8.8.8 ", by decide +kernel, by decide +kernel,
      (p4 8 8 8 8 32).addr, by decide +kernel, by decide +kernel, by decide +kernel⟩
  have hpre := Prepends.entries [ascii "1.1.1.1,2.2.2.2,3.3.3.3, 4.4.4.4"] (ascii "9.9.9.9") [0x20]
    (ascii "8.8.8.8 ") [ascii "10.0.0.7"] (by decide +kernel)
  have hlines : [ascii "1.1.1.1,2.2.2.2,3.3.3.3, 4.4.4.4"] ++
      (ascii "9.9.9.9" ++ comma :: ([0x20] ++ ascii "8.8.8.8 ")) :: [ascii "10.0.0.7"] =
      [ascii "1.1.1.1,2.2.2.2,3.3.3.3, 4.4.4.4", ascii "9.9.9.9, 8.8.8.8 ", ascii "10.0.0.7"] := by
    decide +kernel
  rw [hlines] at hpre
  exact (forwardedFor_not_spoofed latest parseDotted (proxyOptions 0) rfl
    (by decide +kernel) proxyPeer
    (fun _ => [ascii "8.8.8.8 ", ascii "10.0.0.7"]) (fun _ => _) [] _).1 (by decide +kernel) hpre
    (by decide +kernel) hdecides

/-- An address with a zone, as long as the text allows. -/
def zoned : Bytes := ascii "2600::1%" ++ List.replicate 38 97

def parseZoned (s : Bytes) : Option IP :=
  if s = zoned then some (.v6 (BitVec.ofNat 128 (0x2600 * 2 ^ 112 + 1)) (List.replicate 38 97))
    else parseDotted s

/-- A public address in the chain is not enough: with a proxy count as large as the chain the entry
selected is one of those in front, and an overlong one is not an entry. -/
theorem forwardedFor_spoofed :
    chain [ascii "8.8.8.8"] = [ascii "8.8.8.8"] ∧
    (newExtractor (proxyOptions 2)).PublicEntry parseDotted (ascii "8.8.8.8") ∧
    (newExtractor (proxyOptions 2)).peerTrusted proxyPeer = true ∧
    Prepends [ascii "8.8.8.8"] [ascii "9.9.9.9,7.7.7.7", ascii "8.8.8.8"] ∧
    client 2 parseDotted [] [ascii "8.8.8.8"] = proxyPeer ∧
    client 2 parseDotted [] [ascii "9.9.9.9,7.7.7.7", ascii "8.8.8.8"] =
      some (p4 9 9 9 9 32).addr ∧
    chain [zoned] = [zoned] ∧
    (newExtractor (proxyOptions 0)).PublicEntry parseZoned zoned ∧
    Prepends [zoned] [ascii "9.9.9.9", zoned] ∧
    client 0 parseZoned [] [zoned] = proxyPeer ∧
    client 0 parseZoned [] [ascii "9.9.9.9", zoned] = some (p4 9 9 9 9 32).addr :=
  ⟨by decide +kernel,
    ⟨(p4 8 8 8 8 32).addr, by decide +kernel, by decide +kernel, by decide +kernel⟩, by decide +kernel, .lines [_] [_], by decide +kernel, by decide +kernel, by decide +kernel,
    ⟨.v6 (BitVec.ofNat 128 (0x2600 * 2 ^ 112 + 1))
      (List.replicate 38 97), by decide +kernel, by decide +kernel, by decide +kernel⟩,
    .lines [_] [_], by decide +kernel, by decide +kernel⟩

end GoAtlas.Clientip
