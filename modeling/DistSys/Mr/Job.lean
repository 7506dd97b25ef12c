import DistSys.Mr.Bookkeeping
import DistSys.Mr.Sequential
import DistSys.Schemes.Files

/-! @go mr/worker.go, mr/coordinator.go | name:Worker, handleMapTask, handleReduceTask |
    scheme:machine, files

    A whole job: one coordinator, any number of workers, the calls between them in flight, and the
    files they share. A step is the smallest thing that others can observe: a call sent, processed,
    answered or lost, a file opened, a chunk of it read, one record written, a rename, a crash.

        idle ─▶ asking ─┬▶ mapStart ─▶ mapBucket ⇄ mapEncode ─▶ report ─▶ awaiting ─▶ idle
                        ├▶ reduceOpen ⇄ reduceRead ─▶ reduceSorted ─▶ reduceWrite ─▶ report
                        ├▶ exited
                        └▶ idle (Wait)                       any of them ─▶ crashed -/

namespace DistSys.Mr
open GoString (lit itoa)
open Grouping (KeySorted)

abbrev Disk := FileSystem GoString UInt8

/-- What a job is about; `tempDir` is `os.TempDir()`. -/
structure Job where
  mapf : GoString → GoString → List KeyValue
  reducef : GoString → List GoString → GoString
  files : List GoString
  nReduce : ℕ
  tempDir : GoString

/-- A name in a directory, as `os.CreateTemp` joins them. -/
def joinPath (dir name : GoString) : GoString :=
  if dir.getLast? = some 0x2F then dir ++ name else dir ++ lit "/" ++ name

/-- `os.CreateTemp("", fmt.Sprintf("mr-%d-%d-x.tmp", mapID, r))`: the random part comes last. -/
def Job.mapTemp (J : Job) (mapID r : ℕ) (random : GoString) : GoString :=
  joinPath J.tempDir (lit "mr-" ++ itoa mapID ++ lit "-" ++ itoa r ++ lit "-x.tmp" ++ random)

/-- `os.CreateTemp("", fmt.Sprintf("mr-out-%d-*.tmp", reply.WorkId))`. -/
def Job.outTemp (J : Job) (r : ℕ) (random : GoString) : GoString :=
  joinPath J.tempDir (lit "mr-out-" ++ itoa r ++ lit "-" ++ random ++ lit ".tmp")

/-- Why a worker gave up. -/
inductive Fatal where
  | inputFiles
  | cannotOpen (fileName : GoString)
  | failToOpen (fileName : GoString)
  deriving DecidableEq

/-- Where a worker is, with its local variables. -/
inductive Pc where
  | idle
  | asking
  | mapStart (reply : CoordinatorReply)
  | mapBucket (reply : CoordinatorReply) (r : ℕ) (todo : List (List KeyValue))
  | mapEncode (reply : CoordinatorReply) (r : ℕ) (path : GoString) (ino : ℕ) (kva : List KeyValue)
      (todo : List (List KeyValue))
  | reduceOpen (reply : CoordinatorReply) (intermediate : List KeyValue) (todo : List GoString)
  | reduceRead (reply : CoordinatorReply) (intermediate : List KeyValue) (ino : ℕ) (buf : GoString)
      (todo : List GoString)
  | reduceSorted (reply : CoordinatorReply) (intermediate : List KeyValue)
  | reduceWrite (reply : CoordinatorReply) (intermediate : List KeyValue)
      (path : GoString) (ino i : ℕ)
  | report (reply : CoordinatorReply)
  | awaiting
  | exited
  | crashed
  | fatal (reason : Fatal)
  deriving DecidableEq

/-- What a worker's step leaves open: the random part of a temporary name, the size of a read, the
    order in which `sort.Slice` leaves the pairs. -/
inductive Choice where
  | go
  | random (part : GoString)
  | chunk (n : ℕ)
  | sorted (kva : List KeyValue)

/-- The branch of the worker's loop for a reply. -/
def dispatch (reply : CoordinatorReply) : Pc :=
  match reply.taskType with
  | .mapTask => .mapStart reply
  | .reduceTask => .reduceOpen reply [] reply.inputFiles
  | .exit => .exited
  | .wait => .idle
  | .other _ => .idle

/-- A worker's step within `handleMapTask` or `handleReduceTask`. -/
def workerStep (J : Job) (fs : Disk) : Pc → Choice → Option (Disk × Pc)
  | .mapStart reply, .go =>
      match reply.inputFiles with
      | [fileName] =>
        match fs.read fileName with
        | some content =>
          some (fs, .mapBucket reply 0 (buckets reply.nReduce (J.mapf fileName content)))
        | none => some (fs, .fatal (.cannotOpen fileName))
      | _ => some (fs, .fatal .inputFiles)
  | .mapBucket reply _ [], .go => some (fs, .report reply)
  | .mapBucket reply r (kva :: todo), .random part =>
      let path := J.mapTemp reply.workId r part
      (fs.create path).map fun p => (p.1, .mapEncode reply r path p.2 kva todo)
  | .mapEncode reply r path ino (kv :: kva) todo, .go =>
      some (fs.append ino (encode kv), .mapEncode reply r path ino kva todo)
  | .mapEncode reply r path _ [] todo, .go =>
      some (fs.rename path (intermediateName reply.workId r), .mapBucket reply (r + 1) todo)
  | .reduceOpen reply intermediate (fileName :: todo), .go =>
      match fs.dir fileName with
      | some ino => some (fs, .reduceRead reply intermediate ino [] todo)
      | none => some (fs, .fatal (.failToOpen fileName))
  | .reduceRead reply intermediate ino buf todo, .chunk n =>
      if buf.length < (fs.data ino).length then
        some (fs, .reduceRead reply intermediate ino
          (buf ++ ((fs.data ino).drop buf.length).take (n + 1)) todo)
      else some (fs, .reduceOpen reply (intermediate ++ decodeFile buf) todo)
  | .reduceOpen reply intermediate [], .sorted kva =>
      if kva.Perm intermediate ∧ KeySorted (·.key) kva then some (fs, .reduceSorted reply kva)
      else none
  | .reduceSorted reply intermediate, .random part =>
      let path := J.outTemp reply.workId part
      (fs.create path).map fun p => (p.1, .reduceWrite reply intermediate path p.2 0)
  | .reduceWrite reply intermediate path ino i, .go =>
      match reduceRound J.reducef intermediate i with
      | some (j, record) =>
        some (fs.append ino (line record), .reduceWrite reply intermediate path ino j)
      | none => some (fs.rename path (outName reply.workId), .report reply)
  | _, _ => none

/-- A call on its way to the coordinator. -/
inductive Request where
  | assign (w : ℕ)
  | notify (w : ℕ) (args : WorkerArgs)

structure State where
  coord : Coordinator
  fs : Disk
  workers : ℕ → Pc
  requests : List Request
  replies : List (ℕ × CoordinatorReply)

inductive Action where
  | ask (w : ℕ)
  | work (w : ℕ) (choice : Choice)
  | notify (w : ℕ)
  | handle (k : ℕ) (ck : Clock)
  | deliver (k : ℕ)
  | loseRequest (k : ℕ)
  | loseReply (k : ℕ)
  | callReturns (w : ℕ)
  | crash (w : ℕ)

def State.setWorker (s : State) (w : ℕ) (pc : Pc) : State :=
  { s with workers := Function.update s.workers w pc }

/-- The coordinator processes a call; a fatal one ends the job. -/
def State.process (s : State) (ck : Clock) : Request → Option State
  | .assign w =>
      let (coord, reply) := assignTask ck s.coord
      some { s with coord := coord, replies := s.replies ++ [(w, reply)] }
  | .notify _ args =>
      (notifyComplete args s.coord).toOption.map fun coord => { s with coord := coord }

/-- A reply reaches its worker, unless that one is gone. -/
def State.receive (s : State) (p : ℕ × CoordinatorReply) : State :=
  if s.workers p.1 = .asking then s.setWorker p.1 (dispatch p.2) else s

/-- `NotifyComplete` returns whether or not the call got through. A failed `AssignTask` leaves the
    reply as it was made: a map task without input. -/
def afterCall : Pc → Option Pc
  | .awaiting => some .idle
  | .asking => some (dispatch ⟨.mapTask, [], 0, 0⟩)
  | _ => none

def jobStep (J : Job) (s : State) : Action → Option State
  | .ask w =>
      if s.workers w = .idle then
        some { s.setWorker w .asking with requests := s.requests ++ [.assign w] }
      else none
  | .work w choice =>
      (workerStep J s.fs (s.workers w) choice).map fun p => { s.setWorker w p.2 with fs := p.1 }
  | .notify w =>
      match s.workers w with
      | .report reply =>
        some { s.setWorker w .awaiting with requests := s.requests ++ [.notify w reply.report] }
      | _ => none
  | .handle k ck => (s.requests[k]?).bind ({ s with requests := s.requests.eraseIdx k }.process ck)
  | .deliver k => (s.replies[k]?).map ({ s with replies := s.replies.eraseIdx k }.receive)
  | .loseRequest k => some { s with requests := s.requests.eraseIdx k }
  | .loseReply k => some { s with replies := s.replies.eraseIdx k }
  | .callReturns w => (afterCall (s.workers w)).map fun pc => s.setWorker w pc
  | .crash w => some (s.setWorker w .crashed)

/-- A job about to start on a disk, with whatever files are left there. -/
def Job.start (J : Job) (fs : Disk) : State where
  coord := makeCoordinator J.files J.nReduce
  fs := fs
  workers := fun _ => .idle
  requests := []
  replies := []

end DistSys.Mr
