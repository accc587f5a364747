import GmaEngine.FeedFraming
import GmaEngine.FeedServer
import GmaEngine.MarketTA
import GmaEngine.SymbolIsolation

/-!
# Interleaved feed sessions

The feed server reads from many connections in any order. Each connection cuts its own stream
into lines, and each line becomes an operation of the order book manager, a tick for the
Dispatcher, or nothing. A symbol that one connection feeds is left alone by all others: its book,
its deltas and its ticks come from the byte stream of that connection.
-/

namespace GmaEngine
open LocalRuns

/-- What a line asks for. -/
inductive FeedWork (D : Type) where
  | book (op : ManagerOp D)
  | tick (t : Event D)

/-- What leaves the feed server: a delta to its subscribers, or a tick to the Dispatcher. -/
inductive FeedOutput (D : Type) where
  | delta (d : BookDelta)
  | tick (t : Event D)

namespace FeedServer
variable {D : Type}

def maxSymbolSize : ℕ := 64

def handleTickMessage (doc : Json D) : Option (Event D) := do
  let symbol ← (← doc.member "symbol").getString
  if symbol = "" ∨ maxSymbolSize < symbol.utf8ByteSize then none
  else some { symbol := symbol, payload := doc }

/-- The tick of a line: the type is neither of the two that the manager gets, it may be absent or
unknown. -/
def tickOf (line : ℕ × Option (Json D)) : Option (Event D) :=
  if maxLineSize < line.1 then none
  else
    match line.2 with
    | some (.object members) =>
      match ((Json.object members).member "type").bind Json.getString with
      | some "ob" => none
      | some "control" => none
      | _ => handleTickMessage (.object members)
    | _ => none

def workOf [Double D] (line : ℕ × Option (Json D)) : Option (FeedWork D) :=
  ((handleLine line).map .book).or ((tickOf line).map .tick)

/-- The work of the lines of a session, each parsed by `parse`. -/
def works [Double D] (parse : List UInt8 → Option (Json D)) (lines : List (List UInt8)) :
    List (FeedWork D) :=
  lines.filterMap (fun line => workOf (line.length, parse line))

theorem works_append [Double D] (parse : List UInt8 → Option (Json D))
    (lines lines' : List (List UInt8)) :
    works parse (lines ++ lines') = works parse lines ++ works parse lines' :=
  List.filterMap_append

end FeedServer

namespace FeedWork
variable {D : Type}

def symbol : FeedWork D → Option String
  | .book op => op.symbol
  | .tick t => some t.symbol

def perform [Double D] (m : OrderBookManager D) : FeedWork D →
    OrderBookManager D × List (FeedOutput D)
  | .book op => ((m.exec op).1, (m.exec op).2.map .delta)
  | .tick t => (m, [.tick t])

end FeedWork

def FeedOutput.symbol {D : Type} : FeedOutput D → String
  | .delta d => d.symbol
  | .tick t => t.symbol

structure FeedServerState (D : Type) where
  sessions : ℕ → FeedSession := fun _ => {}
  mgr : OrderBookManager D := {}
  out : List (FeedOutput D) := []

namespace FeedServerState
variable {D : Type} [Double D] (parse : List UInt8 → Option (Json D))

/-- A read on a connection: the lines that it completes are handled one after the other. -/
def onRead (s : FeedServerState D) (r : ℕ × List UInt8) : FeedServerState D :=
  let session := (s.sessions r.1).onRead r.2
  let lines := session.handled.drop (s.sessions r.1).handled.length
  let done := LocalRuns.run FeedWork.perform s.mgr (FeedServer.works parse lines)
  { sessions := Function.update s.sessions r.1 session
    mgr := done.1
    out := s.out ++ done.2 }

/-- The server after reads on its connections, in the order in which they complete. -/
def run (m : OrderBookManager D) (reads : List (ℕ × List UInt8)) : FeedServerState D :=
  reads.foldl (onRead parse) { mgr := m }

end FeedServerState

/-- The reads of one connection. -/
def readsOf (c : ℕ) (reads : List (ℕ × List UInt8)) : List (List UInt8) :=
  (reads.filter (·.1 = c)).map Prod.snd

theorem readsOf_concat (c : ℕ) (reads : List (ℕ × List UInt8)) (r : ℕ × List UInt8) :
    readsOf c (reads ++ [r]) = readsOf c reads ++ if r.1 = c then [r.2] else [] := by
  by_cases hc : r.1 = c <;> simp [readsOf, hc]

namespace FeedSession

/-- A read adds to the lines that are handled. -/
theorem handled_onRead (s : FeedSession) (bytes : List UInt8) :
    (s.onRead bytes).handled =
      s.handled ++ (s.onRead bytes).handled.drop s.handled.length := by
  obtain ⟨lines, hlines⟩ : ∃ lines, (s.onRead bytes).handled = s.handled ++ lines := by
    unfold onRead
    dsimp only
    split_ifs
    · exact ⟨[], (List.append_nil _).symm⟩
    · exact ⟨[], (List.append_nil _).symm⟩
    · exact ⟨_, rfl⟩
  rw [hlines, List.drop_left]

theorem run_concat (s : FeedSession) (reads : List (List UInt8)) (bytes : List UInt8) :
    s.run (reads ++ [bytes]) = (s.run reads).onRead bytes := by
  rw [run, List.foldl_append]
  rfl

end FeedSession

namespace FeedServerState
variable {D : Type} [Double D] (parse : List UInt8 → Option (Json D))

theorem localSystem :
    LocalSystem FeedWork.perform (FeedWork.symbol (D := D)) OrderBookManager.part
      FeedOutput.symbol where
  keyed w symbol hw := by
    cases w with
    | book op =>
      exact (OrderBookManager.local_exec op symbol hw).map_events FeedOutput.delta (fun _ => rfl)
    | tick t =>
      obtain rfl : t.symbol = symbol := Option.some.inj hw
      refine ⟨fun _ _ _ => rfl, fun _ _ heq => ⟨heq, rfl⟩, fun _ e he => ?_⟩
      obtain rfl := List.mem_singleton.mp he
      rfl
  unkeyed w hw := by
    cases w with
    | book op =>
      have hop := OrderBookManager.uniform_exec op hw
      exact ⟨hop.parts, fun m => congrArg (List.map FeedOutput.delta) (hop.silent m)⟩
    | tick t => cases hw

theorem run_concat (m : OrderBookManager D) (reads : List (ℕ × List UInt8))
    (r : ℕ × List UInt8) : run parse m (reads ++ [r]) = onRead parse (run parse m reads) r := by
  rw [run, List.foldl_append]
  rfl

/-- Every session sees its own reads only, and the work of all of them is done in some order that
keeps the order of each. -/
theorem run_trace (m : OrderBookManager D) (reads : List (ℕ × List UInt8)) :
    (∀ c, (run parse m reads).sessions c = FeedSession.run {} (readsOf c reads)) ∧
    ∃ trace : List (ℕ × FeedWork D),
      ((run parse m reads).mgr, (run parse m reads).out) =
        LocalRuns.run FeedWork.perform m (trace.map Prod.snd) ∧
      ∀ c, (trace.filter (·.1 = c)).map Prod.snd =
        FeedServer.works parse ((run parse m reads).sessions c).handled := by
  induction reads using List.reverseRecOn with
  | nil => exact ⟨fun _ => rfl, [], rfl, fun _ => rfl⟩
  | append_singleton reads r ih =>
    obtain ⟨hsessions, trace, htrace, hworks⟩ := ih
    rw [run_concat]
    generalize run parse m reads = s at hsessions htrace hworks
    generalize hlines : ((s.sessions r.1).onRead r.2).handled.drop
      (s.sessions r.1).handled.length = lines
    have hhandled : ((s.sessions r.1).onRead r.2).handled =
        (s.sessions r.1).handled ++ lines := by
      rw [← hlines]
      exact FeedSession.handled_onRead _ _
    refine ⟨fun c => ?_, trace ++ (FeedServer.works parse lines).map (r.1, ·), ?_, fun c => ?_⟩
    · rw [readsOf_concat]
      by_cases hc : r.1 = c
      · subst hc
        rw [if_pos rfl, FeedSession.run_concat, ← hsessions r.1]
        simp [onRead]
      · rw [if_neg hc, List.append_nil, ← hsessions c]
        simp [onRead, Function.update_of_ne (Ne.symm hc)]
    · have hmap : ((FeedServer.works parse lines).map (r.1, ·)).map Prod.snd =
          FeedServer.works parse lines := by
        rw [List.map_map]
        exact List.map_id _
      rw [List.map_append, hmap, run_append, ← htrace, ← hlines]
      rfl
    · rw [List.filter_append, List.map_append, hworks c]
      by_cases hc : r.1 = c
      · subst hc
        have hself : ((s.onRead parse r).sessions r.1).handled =
            (s.sessions r.1).handled ++ lines := by
          rw [← hhandled]
          simp [onRead]
        rw [hself, FeedServer.works_append]
        congr 1
        simp [List.filter_map, Function.comp_def]
      · have hother : (s.onRead parse r).sessions c = s.sessions c := by
          simp [onRead, Function.update_of_ne (Ne.symm hc)]
        rw [hother]
        simp [List.filter_map, Function.comp_def, hc]

/-- A symbol that the work of the other connections leaves alone is worked on by one connection
only, in the order of its lines. -/
theorem run_symbol (m : OrderBookManager D) (reads : List (ℕ × List UInt8)) (c : ℕ)
    (symbol : String)
    (hothers : ∀ c', c' ≠ c → ∀ w ∈ FeedServer.works parse
      (FeedSession.run {} (readsOf c' reads)).handled, concerns FeedWork.symbol symbol w = false) :
    let alone := LocalRuns.run FeedWork.perform m
      (FeedServer.works parse (FeedSession.run {} (readsOf c reads)).handled)
    (run parse m reads).mgr.part symbol = alone.1.part symbol ∧
    (run parse m reads).out.filter (·.symbol = symbol) = alone.2.filter (·.symbol = symbol) := by
  intro alone
  obtain ⟨hsessions, trace, htrace, hworks⟩ := run_trace parse m reads
  obtain ⟨hmgr, hout⟩ := Prod.mk.inj htrace
  have hparty : ∀ x ∈ trace, x.1 ≠ c → concerns FeedWork.symbol symbol x.2 = false := by
    intro x hx hc
    have hmem : x.2 ∈ FeedServer.works parse ((run parse m reads).sessions x.1).handled := by
      rw [← hworks x.1]
      exact List.mem_map_of_mem (List.mem_filter.mpr ⟨hx, by simp⟩)
    rw [hsessions x.1] at hmem
    exact hothers x.1 hc x.2 hmem
  have hrun := localSystem.run_party symbol m c hparty
  rw [hworks c, hsessions c] at hrun
  rw [hmgr, hout]
  exact hrun

/-- However the streams of the connections are cut into reads and mixed: a symbol that only one
connection works on gets its book, its deltas and its ticks from the lines of that connection's
stream. -/
theorem symbol_of_stream (m : OrderBookManager D) (reads : List (ℕ × List UInt8)) (c : ℕ)
    (symbol : String) (hreads : ∀ r ∈ reads, r.2.length ≤ FeedSession.bufSize)
    (hlines : ∀ line ∈ (readsOf c reads).flatten.splitOn FeedSession.newline,
      line.length ≤ 64 * 1024)
    (hothers : ∀ c', c' ≠ c → ∀ w ∈ FeedServer.works parse
      (FeedSession.run {} (readsOf c' reads)).handled, concerns FeedWork.symbol symbol w = false) :
    let alone := LocalRuns.run FeedWork.perform m (FeedServer.works parse
      (((readsOf c reads).flatten.splitOn FeedSession.newline).dropLast.map FeedSession.stripCR))
    (run parse m reads).mgr.part symbol = alone.1.part symbol ∧
    (run parse m reads).out.filter (·.symbol = symbol) = alone.2.filter (·.symbol = symbol) := by
  have hsizes : ∀ bytes ∈ readsOf c reads, bytes.length ≤ FeedSession.bufSize := by
    intro bytes hbytes
    obtain ⟨r, hr, rfl⟩ := List.mem_map.mp hbytes
    exact hreads r (List.mem_filter.mp hr).1
  have hsession : FeedSession.run {} (readsOf c reads) =
      FeedSession.after (readsOf c reads).flatten :=
    @FeedSession.run_after _ [] hsizes hlines
  have hrun := run_symbol parse m reads c symbol hothers
  rw [hsession] at hrun
  exact hrun

def textOf (line : String) : List UInt8 := line.toUTF8.data.toList

def aaplAdd : List UInt8 :=
  textOf ("\x7b\"type\":\"ob\",\"symbol\":\"AAPL\",\"action\":\"add\",\"id\":1," ++
    "\"side\":\"bid\",\"price\":42.5,\"size\":10\x7d")

def aaplTick : List UInt8 := textOf "\x7b\"symbol\":\"AAPL\",\"price\":42.5\x7d"

def msftTick : List UInt8 := textOf "\x7b\"symbol\":\"MSFT\",\"price\":7.5\x7d"

/-- What the parser makes of these lines. -/
def parseLine (line : List UInt8) : Option (Json ExactDouble) :=
  if line = aaplAdd then
    some (.object [("type", .string "ob"), ("symbol", .string "AAPL"), ("action", .string "add"),
      ("id", .uint 1), ("side", .string "bid"), ("price", .double (.fin (85 / 2))),
      ("size", .uint 10)])
  else if line = aaplTick then
    some (.object [("symbol", .string "AAPL"), ("price", .double (.fin (85 / 2)))])
  else if line = msftTick then
    some (.object [("symbol", .string "MSFT"), ("price", .double (.fin (15 / 2)))])
  else none

/-- An order and a tick for AAPL come in three pieces around the lines of another connection. -/
def mixedReads : List (ℕ × List UInt8) :=
  [(0, aaplAdd.take 20), (1, msftTick ++ [10]), (0, aaplAdd.drop 20 ++ [13, 10] ++ aaplTick.take 7),
    (1, msftTick ++ [10]), (0, aaplTick.drop 7 ++ [10])]

theorem symbol_of_mixedReads :
    let alone := LocalRuns.run FeedWork.perform ({} : OrderBookManager ExactDouble)
      (FeedServer.works parseLine [aaplAdd, aaplTick])
    (run parseLine {} mixedReads).mgr.part "AAPL" = alone.1.part "AAPL" ∧
    (run parseLine {} mixedReads).out.filter (·.symbol = "AAPL") =
      alone.2.filter (·.symbol = "AAPL") ∧
    ((run parseLine {} mixedReads).out.filter (·.symbol = "AAPL")).length = 2 := by
  have hlines : ((readsOf 0 mixedReads).flatten.splitOn FeedSession.newline).dropLast.map
      FeedSession.stripCR = [aaplAdd, aaplTick] := by decide +kernel
  have hothers : ∀ c, c ≠ 0 → ∀ w ∈ FeedServer.works parseLine
      (FeedSession.run {} (readsOf c mixedReads)).handled,
        concerns FeedWork.symbol "AAPL" w = false := by
    intro c hc w hw
    by_cases hone : c = 1
    · subst hone
      have hall : ∀ w ∈ FeedServer.works parseLine
          (FeedSession.run {} (readsOf 1 mixedReads)).handled,
            concerns FeedWork.symbol "AAPL" w = false := by decide +kernel
      exact hall w hw
    · have hnone : readsOf c mixedReads = [] := by
        simp [readsOf, mixedReads, Ne.symm hc, Ne.symm hone]
      rw [hnone] at hw
      cases hw
  have hsymbol := symbol_of_stream parseLine {} mixedReads 0 "AAPL" (by decide +kernel)
    (by decide +kernel) hothers
  rw [hlines] at hsymbol
  exact ⟨hsymbol.1, hsymbol.2, by decide +kernel⟩

end FeedServerState
end GmaEngine
