import Prun.Worker.Request
import Prun.Worker.ScriptExec
import Prun.Master.CronManager
import Prun.Master.CronNames
import Prun.Master.CronSweep
import Prun.Master.CronRegistry
import Prun.Worker.Fifo
import Prun.Master.WorkerManager
import Prun.Master.CronChildren
import Prun.Master.CronJobsInfo
import Prun.Worker.ThreadSetup
