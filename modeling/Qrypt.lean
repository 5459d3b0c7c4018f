import Qrypt.Credentials.Session
import Qrypt.Crypt.Blocks
import Qrypt.Crypt.GenuineNames
import Qrypt.Crypt.ListedNames
import Qrypt.Crypt.ReadClamped
import Qrypt.Crypt.ReadOpen
import Qrypt.Download.One
import Qrypt.Drive.SessionIndex
import Qrypt.Mount.CreateFile
import Qrypt.ReadCache.Store
import Qrypt.Share.Attribution
import Qrypt.Share.Cleanup
import Qrypt.Share.Pages
import Qrypt.Stream.Download
import Qrypt.Sync.Contained
import Qrypt.Sync.Content
import Qrypt.Sync.Extras
import Qrypt.Sync.Order
import Qrypt.Task.Keys
import Qrypt.Task.Runners
import Qrypt.Upload.Failures
import Qrypt.Upload.Prune
import Qrypt.Upload.Retry
import Qrypt.Vfs.DeleteKeyed
import Qrypt.Vfs.DeleteTarget
import Qrypt.Vfs.Hidden
import Qrypt.Vfs.MkdirEmpty
import Qrypt.Vfs.PathLock
import Qrypt.Vfs.RenameState
import Qrypt.Vfs.RenameTogether
import Qrypt.Vfs.Restore
import Qrypt.Vfs.Scheduler
import Qrypt.Vfs.SourceUpload
import Qrypt.Vfs.StaleList
